import CallFold.Evaluation
import CallFold.Proofs.FixedPoint

/-!
# Evaluating the calls of a method

What an evaluation does when no handler refuses a call, one call after the other
(`Evaluator.Takes`). It adds to the cache exactly what it reports as resolved (`Takes.get?_iff`),
and each of these calls was resolved with the cache that it started with and what it had resolved
before (`Takes.exists_decision`). What it declines is all that is left (`Takes.mem_declined`).
-/

namespace CallFold

theorem exists_of_map_eq_ok {ε α β : Type} {f : α → β} {x : Except ε α} {b : β}
    (h : x.map f = .ok b) : ∃ a, x = .ok a ∧ f a = b := by
  cases x with
  | error _ => simp [Except.map] at h
  | ok a => exact ⟨a, rfl, Except.ok.inj h⟩

/-! ## Caches -/

/-- A key that was just written holds what was written, and every other key what it held. -/
theorem Table.get?_insert {κ α : Type} [DecidableEq κ] (t : Table κ α) (k k' : κ) (v : α) :
    (t.insert k v).get? k' = if k' = k then some v else t.get? k' := by
  split
  · next h => rw [h, get?_insert_self]
  · next h => exact get?_insert_of_ne t v h

namespace OutcomeCache

variable {c d : OutcomeCache} {site : Nat} {o : Outcome}

theorem contains_eq_true_iff : c.contains site = true ↔ ∃ o, c.get? site = some o :=
  Option.isSome_iff_exists

theorem contains_eq_false_iff : c.contains site = false ↔ c.get? site = none :=
  Option.isSome_eq_false_iff.trans Option.isNone_iff_eq_none

theorem get?_insert (h : c.contains site = false) (o : Outcome) (site' : Nat) :
    (c.insert site o).2.get? site' = if site' = site then some o else c.get? site' := by
  rw [insert, if_neg (by simp [h])]
  exact Table.get?_insert c.table site site' o

theorem get?_insert_eq_some_iff (h : c.contains site = false) {site' : Nat} {o' : Outcome} :
    (c.insert site o).2.get? site' = some o' ↔
      c.get? site' = some o' ∨ site = site' ∧ o = o' := by
  rw [get?_insert h]
  by_cases hsite : site' = site
  · subst hsite
    simp [contains_eq_false_iff.mp h]
  · simp [hsite, Ne.symm hsite]

/-- Every entry of the one cache is an entry of the other. -/
def Within (c d : OutcomeCache) : Prop :=
  ∀ site o, c.get? site = some o → d.get? site = some o

theorem Within.refl (c : OutcomeCache) : c.Within c := fun _ _ h => h

theorem Within.trans {e : OutcomeCache} (hc : c.Within d) (hd : d.Within e) : c.Within e :=
  fun site o h => hd site o (hc site o h)

theorem within_insert (h : c.contains site = false) (o : Outcome) :
    c.Within (c.insert site o).2 :=
  fun _ _ hget => (get?_insert_eq_some_iff h).mpr (Or.inl hget)

end OutcomeCache

namespace Evaluator

variable {e : Evaluator} {call call' : RecognizedCall} {site : Nat}

/-! ## Recognised calls -/

theorem recognize?_eq_some_iff :
    e.recognize? site = some call ↔
      call.site = site ∧ e.graph.instruction? site = some (.invoke call.callee) ∧
        e.catalog.get? call.callee.signature = some call.entry ∧
        e.graph.frame? site = some call.frame := by
  have hcallee : ∀ i : Instruction, ∀ callee, i.callee? = some callee ↔ i = .invoke callee := by
    intro i callee
    cases i <;> simp [Instruction.callee?]
  simp only [recognize?, bind, Option.bind_eq_some_iff, hcallee]
  constructor
  · rintro ⟨_, hi, callee, rfl, entry, hentry, frame, hframe, heq⟩
    obtain rfl := Option.some.inj heq
    exact ⟨rfl, hi, hentry, hframe⟩
  · rintro ⟨rfl, hi, hentry, hframe⟩
    exact ⟨_, hi, call.callee, rfl, call.entry, hentry, call.frame, hframe, rfl⟩

theorem mem_recognizedCalls_iff :
    call ∈ e.recognizedCalls ↔ e.recognize? call.site = some call := by
  rw [recognizedCalls, List.mem_filterMap]
  constructor
  · rintro ⟨site, -, h⟩
    rwa [(recognize?_eq_some_iff.mp h).1]
  · intro h
    obtain ⟨-, -, -, hframe⟩ := recognize?_eq_some_iff.mp h
    exact ⟨call.site, List.mem_range.mpr (FrameGraph.lt_length_of_frame hframe), h⟩

/-- A site has at most one recognised call. -/
theorem eq_of_site_eq (h : call ∈ e.recognizedCalls) (h' : call' ∈ e.recognizedCalls)
    (hsite : call.site = call'.site) : call = call' := by
  rw [mem_recognizedCalls_iff] at h h'
  rw [hsite] at h
  exact Option.some.inj (h.symm.trans h')

theorem get?_catalog_of_mem (h : call ∈ e.recognizedCalls) :
    e.catalog.get? call.callee.signature = some call.entry :=
  (recognize?_eq_some_iff.mp (mem_recognizedCalls_iff.mp h)).2.2.1

theorem map_site_recognizedCalls (e : Evaluator) :
    e.recognizedCalls.map RecognizedCall.site =
      (List.range e.graph.length).filter fun site => (e.recognize? site).isSome := by
  rw [recognizedCalls]
  induction List.range e.graph.length with
  | nil => rfl
  | cons site sites ih =>
    cases hsite : e.recognize? site with
    | none => rw [List.filterMap_cons_none hsite, ih, List.filter_cons_of_neg (by simp [hsite])]
    | some call =>
      rw [List.filterMap_cons_some hsite, List.map_cons, ih, (recognize?_eq_some_iff.mp hsite).1,
        List.filter_cons_of_pos (by simp [hsite])]

/-- No site is recognised twice. -/
theorem nodup_sites (e : Evaluator) : (e.recognizedCalls.map RecognizedCall.site).Nodup := by
  rw [map_site_recognizedCalls]
  exact List.nodup_range.filter _

/-! ## One call after the other -/

/-- Taking some calls in turn leads from a cache to another one, and to decisions. -/
inductive Takes (e : Evaluator) :
    OutcomeCache → List RecognizedCall → OutcomeCache → Decisions → Prop where
  | done {cache : OutcomeCache} : Takes e cache [] cache ⟨[], []⟩
  | known {cache last : OutcomeCache} {call : RecognizedCall} {calls : List RecognizedCall}
      {d : Decisions} (hknown : cache.contains call.site = true)
      (hrest : Takes e cache calls last d) : Takes e cache (call :: calls) last d
  | declined {cache last : OutcomeCache} {call : RecognizedCall} {calls : List RecognizedCall}
      {d : Decisions} (hnew : cache.contains call.site = false)
      (hdecide : e.decide cache call = .ok none) (hrest : Takes e cache calls last d) :
      Takes e cache (call :: calls) last ⟨d.resolved, call.site :: d.declined⟩
  | resolved {cache last : OutcomeCache} {call : RecognizedCall} {calls : List RecognizedCall}
      {d : Decisions} {r : Resolution} (hnew : cache.contains call.site = false)
      (hdecide : e.decide cache call = .ok (some r))
      (hrest : Takes e (cache.insert call.site r.outcome).2 calls last d) :
      Takes e cache (call :: calls) last ⟨resolvedCall call r :: d.resolved, d.declined⟩

variable {cache last : OutcomeCache} {calls : List RecognizedCall} {d : Decisions}

theorem takes_of_run (h : e.run calls cache = (last, .ok d)) : e.Takes cache calls last d := by
  induction calls generalizing cache d with
  | nil =>
    obtain ⟨rfl, hd⟩ := Prod.mk.inj h
    obtain rfl := Except.ok.inj hd
    exact .done
  | cons call calls ih =>
    rw [run] at h
    split at h
    · next hknown => exact .known hknown (ih h)
    · next hnew =>
      rw [Bool.not_eq_true] at hnew
      split at h
      · simp at h
      · next hdecide =>
        obtain ⟨rfl, hresult⟩ := Prod.mk.inj h
        obtain ⟨d', hd', rfl⟩ := exists_of_map_eq_ok hresult
        exact .declined hnew hdecide (ih (Prod.ext rfl hd'))
      · next r hdecide =>
        obtain ⟨rfl, hresult⟩ := Prod.mk.inj h
        obtain ⟨d', hd', rfl⟩ := exists_of_map_eq_ok hresult
        exact .resolved hnew hdecide (ih (Prod.ext rfl hd'))

/-- An evaluation that refuses nothing takes the recognised calls in turn. -/
theorem takes_of_evaluate {report : MethodReport} (h : e.evaluate cache = (last, .ok report)) :
    ∃ d, e.Takes cache e.recognizedCalls last d ∧
      report = ⟨e.recognizedCalls.length, d.resolved, d.declined⟩ := by
  rw [evaluate] at h
  obtain ⟨rfl, hresult⟩ := Prod.mk.inj h
  obtain ⟨d, hd, rfl⟩ := exists_of_map_eq_ok hresult
  exact ⟨d, takes_of_run (Prod.ext rfl hd), rfl⟩

namespace Takes

/-- An evaluation that takes its calls in turn is the one that is run. -/
theorem run_eq (h : e.Takes cache calls last d) : e.run calls cache = (last, .ok d) := by
  induction h with
  | done => rfl
  | known hknown _ ih => rw [run, if_pos hknown, ih]
  | declined hnew hdecide _ ih =>
    rw [run, if_neg (Bool.eq_false_iff.mp hnew), hdecide]
    dsimp only
    rw [ih]
    rfl
  | resolved hnew hdecide _ ih =>
    rw [run, if_neg (Bool.eq_false_iff.mp hnew), hdecide]
    dsimp only
    rw [ih]
    rfl

theorem evaluate_eq (h : e.Takes cache e.recognizedCalls last d) :
    e.evaluate cache = (last, .ok ⟨e.recognizedCalls.length, d.resolved, d.declined⟩) := by
  rw [evaluate]
  dsimp only
  rw [h.run_eq]
  rfl

theorem within (h : e.Takes cache calls last d) : cache.Within last := by
  induction h with
  | done => exact .refl _
  | known _ _ ih => exact ih
  | declined _ _ _ ih => exact ih
  | resolved hnew _ _ ih => exact (OutcomeCache.within_insert hnew _).trans ih

/-- The cache is extended by exactly the calls that are reported as resolved. -/
theorem get?_iff (h : e.Takes cache calls last d) {site : Nat} {o : Outcome} :
    last.get? site = some o ↔
      cache.get? site = some o ∨ ∃ call ∈ d.resolved, call.site = site ∧ call.outcome = o := by
  induction h with
  | done => simp
  | known _ _ ih => exact ih
  | declined _ _ _ ih => exact ih
  | resolved hnew _ _ ih =>
    rw [ih, OutcomeCache.get?_insert_eq_some_iff hnew, or_assoc, List.exists_mem_cons_iff]
    rfl

/-- What is resolved was not in the cache before. -/
theorem get?_of_resolved (h : e.Takes cache calls last d) {call : ResolvedCall}
    (hcall : call ∈ d.resolved) : cache.get? call.site = none := by
  induction h with
  | done => simp at hcall
  | known _ _ ih => exact ih hcall
  | declined _ _ _ ih => exact ih hcall
  | @resolved cache _ first _ _ r hnew _ _ ih =>
    rcases List.mem_cons.mp hcall with rfl | hmem
    · exact OutcomeCache.contains_eq_false_iff.mp hnew
    · have hnone := ih hmem
      rw [OutcomeCache.get?_insert hnew] at hnone
      split at hnone
      · simp at hnone
      · exact hnone

/-- No site is resolved twice. -/
theorem nodup_resolved (h : e.Takes cache calls last d) :
    (d.resolved.map ResolvedCall.site).Nodup := by
  induction h with
  | done => exact List.nodup_nil
  | known _ _ ih => exact ih
  | declined _ _ _ ih => exact ih
  | @resolved cache _ call _ _ r hnew _ hrest ih =>
    refine List.nodup_cons.mpr ⟨fun hmem => ?_, ih⟩
    obtain ⟨later, hlater, hsite⟩ := List.mem_map.mp hmem
    have hnone := hrest.get?_of_resolved hlater
    rw [hsite, OutcomeCache.get?_insert hnew] at hnone
    simp [resolvedCall] at hnone

/--
Each resolved call was resolved by its handler, with the cache at the start and the calls resolved
before it.
-/
theorem exists_decision (h : e.Takes cache calls last d) {earlier later : List ResolvedCall}
    {resolved : ResolvedCall} (hsplit : d.resolved = earlier ++ resolved :: later) :
    ∃ call ∈ calls, ∃ r seen, resolved = resolvedCall call r ∧
      e.decide seen call = .ok (some r) ∧ ∀ site o, seen.get? site = some o ↔
        cache.get? site = some o ∨ ∃ p ∈ earlier, p.site = site ∧ p.outcome = o := by
  induction h generalizing earlier with
  | done => simp at hsplit
  | known _ _ ih =>
    obtain ⟨call, hcall, hrest⟩ := ih hsplit
    exact ⟨call, List.mem_cons_of_mem _ hcall, hrest⟩
  | declined _ _ _ ih =>
    obtain ⟨call, hcall, hrest⟩ := ih hsplit
    exact ⟨call, List.mem_cons_of_mem _ hcall, hrest⟩
  | @resolved cache _ first _ d r hnew hdecide _ ih =>
    cases earlier with
    | nil =>
      obtain ⟨rfl, -⟩ := List.cons.inj hsplit
      exact ⟨first, List.mem_cons_self, r, cache, rfl, hdecide, by simp⟩
    | cons head earlier =>
      obtain ⟨rfl, htail⟩ := List.cons.inj hsplit
      obtain ⟨call, hcall, r', seen, heq, hdecide', hseen⟩ := ih htail
      refine ⟨call, List.mem_cons_of_mem _ hcall, r', seen, heq, hdecide', fun site o => ?_⟩
      rw [hseen, OutcomeCache.get?_insert_eq_some_iff hnew, or_assoc, List.exists_mem_cons_iff]
      rfl

/-- A call that is taken is in the cache at the end, or was declined. -/
theorem mem_declined (h : e.Takes cache calls last d) {call : RecognizedCall}
    (hcall : call ∈ calls) (hleft : last.contains call.site = false) :
    call.site ∈ d.declined := by
  induction h with
  | done => simp at hcall
  | known hknown hrest ih =>
    rcases List.mem_cons.mp hcall with rfl | hmem
    · obtain ⟨o, ho⟩ := OutcomeCache.contains_eq_true_iff.mp hknown
      rw [OutcomeCache.contains_eq_false_iff, hrest.within _ o ho] at hleft
      simp at hleft
    · exact ih hmem hleft
  | declined _ _ _ ih =>
    rcases List.mem_cons.mp hcall with rfl | hmem
    · exact List.mem_cons_self
    · exact List.mem_cons_of_mem _ (ih hmem hleft)
  | @resolved cache _ first _ _ r hnew _ hrest ih =>
    rcases List.mem_cons.mp hcall with rfl | hmem
    · have hget : (cache.insert call.site r.outcome).2.get? call.site = some r.outcome := by
        rw [OutcomeCache.get?_insert hnew, if_pos rfl]
      rw [OutcomeCache.contains_eq_false_iff, hrest.within _ _ hget] at hleft
      simp at hleft
    · exact ih hmem hleft

/-- What is not among the calls that are taken stays as it was. -/
theorem contains_of_notMem (h : e.Takes cache calls last d) {site : Nat}
    (hsite : site ∉ calls.map RecognizedCall.site) : last.contains site = cache.contains site := by
  induction h with
  | done => rfl
  | known _ _ ih => exact ih fun hmem => hsite (List.mem_cons_of_mem _ hmem)
  | declined _ _ _ ih => exact ih fun hmem => hsite (List.mem_cons_of_mem _ hmem)
  | @resolved cache _ call _ _ r hnew _ _ ih =>
    have hne : site ≠ call.site := fun heq => hsite (heq ▸ List.mem_cons_self)
    rw [ih fun hmem => hsite (List.mem_cons_of_mem _ hmem)]
    show ((cache.insert call.site r.outcome).2.get? site).isSome = (cache.get? site).isSome
    rw [OutcomeCache.get?_insert hnew, if_neg hne]

/-- Where nothing is resolved, the cache stays, and every handler declines with this cache. -/
theorem declines_of_resolved_eq_nil (h : e.Takes cache calls last d) (hnone : d.resolved = []) :
    last = cache ∧ ∀ call ∈ calls, cache.contains call.site = false →
      e.decide cache call = .ok none := by
  induction h with
  | done => simp
  | known hknown _ ih =>
    obtain ⟨hlast, hrest⟩ := ih hnone
    refine ⟨hlast, List.forall_mem_cons.mpr ⟨fun hnew => ?_, hrest⟩⟩
    rw [hknown] at hnew
    simp at hnew
  | declined _ hdecide _ ih =>
    obtain ⟨hlast, hrest⟩ := ih hnone
    exact ⟨hlast, List.forall_mem_cons.mpr ⟨fun _ => hdecide, hrest⟩⟩
  | resolved _ _ _ _ => simp at hnone

end Takes

end Evaluator

end CallFold
