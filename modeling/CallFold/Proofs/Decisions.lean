import CallFold.Proofs.Evaluation
import Mathlib

/-!
# What an evaluation decides

An evaluation goes through the recognised calls in the order of their sites. Those that it does not
find in the cache it resolves or declines, and each is decided with the cache at the start and what
was resolved at smaller sites (`Evaluator.Settles`).

An evaluation that is refused has settled the calls before the one that is refused, and so it is a
complete evaluation of a prefix followed by one call (`Evaluator.exists_of_run_eq_error`). Both
results are told by `Evaluator.evaluate_settles`.
-/

namespace CallFold

/-- The cache with the outcomes of some resolved calls, written one after the other. -/
def OutcomeCache.extend (c : OutcomeCache) (calls : List ResolvedCall) : OutcomeCache :=
  calls.foldl (fun c call => (c.insert call.site call.outcome).2) c

theorem eq_error_of_map {ε α β : Type} {f : α → β} {x : Except ε α} {error : ε}
    (h : x.map f = .error error) : x = .error error := by
  cases x with
  | error _ => exact congrArg Except.error (Except.error.inj h)
  | ok _ => simp [Except.map] at h

namespace Evaluator

/-- There is a reachable call at the site, and its signature is in the catalog. -/
def Recognizes (e : Evaluator) (site : Nat) : Prop :=
  ∃ callee, e.graph.instruction? site = some (.invoke callee) ∧
    e.catalog.contains callee.signature = true ∧ e.graph.isReachable site = true

/--
What is decided about the calls of some sites when none of them is refused. The sites that were
resolved before, those that are resolved now and those that are declined make up all of them.
-/
structure Settles (e : Evaluator) (cache : OutcomeCache) (sites : Set Nat) (d : Decisions) :
    Prop where
  cover : {site ∈ sites | cache.contains site = true} ∪
    {site | site ∈ d.resolved.map ResolvedCall.site} ∪ {site | site ∈ d.declined} = sites
  open_resolved : ∀ site ∈ d.resolved.map ResolvedCall.site, cache.contains site = false
  open_declined : ∀ site ∈ d.declined, cache.contains site = false
  disjoint : (d.resolved.map ResolvedCall.site).Disjoint d.declined
  resolved_ascending : (d.resolved.map ResolvedCall.site).Pairwise (· < ·)
  declined_ascending : d.declined.Pairwise (· < ·)
  /-- The handler of each open call has seen what was resolved at smaller sites. -/
  decided : ∀ site callee entry frame, site ∈ sites → cache.contains site = false →
    e.graph.instruction? site = some (.invoke callee) →
    e.catalog.get? callee.signature = some entry → e.graph.frame? site = some frame →
      ∃ context answer, CallContext.make site callee frame = .ok context ∧
        entry.handler (e.scope (cache.extend (d.resolved.filter (·.site < site)))) context =
          .ok answer ∧
        match answer with
        | none => site ∈ d.declined
        | some r =>
          ⟨site, callee.signature, r.outcome, r.registration, entry.taggable⟩ ∈ d.resolved

variable {e : Evaluator} {cache last : OutcomeCache} {d : Decisions} {site : Nat}
  {calls before after : List RecognizedCall} {call : RecognizedCall}

/-! ## Sites -/

theorem recognizes_iff : e.Recognizes site ↔ ∃ call, e.recognize? site = some call := by
  constructor
  · rintro ⟨callee, hi, hcatalog, hreachable⟩
    obtain ⟨entry, hentry⟩ := Option.isSome_iff_exists.mp hcatalog
    obtain ⟨frame, hframe⟩ := Option.isSome_iff_exists.mp hreachable
    exact ⟨⟨site, callee, frame, entry⟩, recognize?_eq_some_iff.mpr ⟨rfl, hi, hentry, hframe⟩⟩
  · rintro ⟨call, hcall⟩
    obtain ⟨-, hi, hentry, hframe⟩ := recognize?_eq_some_iff.mp hcall
    exact ⟨call.callee, hi, Option.isSome_iff_exists.mpr ⟨_, hentry⟩,
      Option.isSome_iff_exists.mpr ⟨_, hframe⟩⟩

theorem recognizes_of_mem (h : call ∈ e.recognizedCalls) : e.Recognizes call.site :=
  recognizes_iff.mpr ⟨call, mem_recognizedCalls_iff.mp h⟩

theorem mem_sites_iff : site ∈ e.recognizedCalls.map RecognizedCall.site ↔ e.Recognizes site := by
  rw [List.mem_map]
  constructor
  · rintro ⟨call, hcall, rfl⟩
    exact recognizes_of_mem hcall
  · intro h
    obtain ⟨call, hcall⟩ := recognizes_iff.mp h
    obtain ⟨rfl, -⟩ := recognize?_eq_some_iff.mp hcall
    exact ⟨call, mem_recognizedCalls_iff.mpr hcall, rfl⟩

theorem sites_ascending (e : Evaluator) :
    (e.recognizedCalls.map RecognizedCall.site).Pairwise (· < ·) := by
  rw [map_site_recognizedCalls]
  exact List.pairwise_lt_range.filter _

/-- The calls that stand before another one are those with smaller sites. -/
theorem mem_before_iff (hsplit : e.recognizedCalls = before ++ call :: after) :
    e.Recognizes site ∧ site < call.site ↔ site ∈ before.map RecognizedCall.site := by
  have hascending := e.sites_ascending
  rw [hsplit, List.map_append, List.pairwise_append] at hascending
  obtain ⟨-, hafter, hbefore⟩ := hascending
  rw [← mem_sites_iff, hsplit, List.map_append, List.mem_append]
  constructor
  · rintro ⟨hmem | hmem, hlt⟩
    · exact hmem
    · rcases List.mem_cons.mp hmem with rfl | hmem
      · exact absurd hlt (Nat.lt_irrefl _)
      · exact absurd ((List.pairwise_cons.mp hafter).1 _ hmem) (Nat.lt_asymm hlt)
  · intro hmem
    exact ⟨Or.inl hmem, hbefore _ hmem _ List.mem_cons_self⟩

theorem length_recognizedCalls (e : Evaluator) :
    e.recognizedCalls.length = {site | e.Recognizes site}.ncard := by
  have hsites : {site | e.Recognizes site} =
      ↑(e.recognizedCalls.map RecognizedCall.site).toFinset := by
    ext site
    rw [List.coe_toFinset]
    exact mem_sites_iff.symm
  rw [hsites, Set.ncard_coe_finset, List.toFinset_card_of_nodup e.nodup_sites, List.length_map]

/-! ## Handlers -/

theorem decide_eq_ok_iff {answer : Option Resolution} :
    e.decide cache call = .ok answer ↔
      ∃ context, CallContext.make call.site call.callee call.frame = .ok context ∧
        call.entry.handler (e.scope cache) context = .ok answer := by
  unfold decide
  cases CallContext.make call.site call.callee call.frame with
  | error _ => simp
  | ok context => simp

theorem decide_eq_error_iff {error : Error} :
    e.decide cache call = .error error ↔
      CallContext.make call.site call.callee call.frame = .error error ∨
      ∃ context, CallContext.make call.site call.callee call.frame = .ok context ∧
        call.entry.handler (e.scope cache) context = .error error := by
  unfold decide
  cases CallContext.make call.site call.callee call.frame with
  | error _ => simp
  | ok context => simp

/-! ## Parts of an evaluation -/

namespace Takes

theorem eq_extend (h : e.Takes cache calls last d) : last = cache.extend d.resolved := by
  induction h with
  | done => rfl
  | known _ _ ih => exact ih
  | declined _ _ _ ih => exact ih
  | resolved _ _ _ ih => exact ih

/-- To take some calls and then others is to take all of them. -/
theorem exists_of_append (h : e.Takes cache (before ++ after) last d) :
    ∃ mid first second, e.Takes cache before mid first ∧ e.Takes mid after last second ∧
      d.resolved = first.resolved ++ second.resolved ∧
      d.declined = first.declined ++ second.declined := by
  induction before generalizing cache d with
  | nil => exact ⟨cache, ⟨[], []⟩, d, .done, h, rfl, rfl⟩
  | cons call before ih =>
    cases h with
    | known hknown hrest =>
      obtain ⟨mid, first, second, hfirst, hsecond, hresolved, hdeclined⟩ := ih hrest
      exact ⟨mid, first, second, .known hknown hfirst, hsecond, hresolved, hdeclined⟩
    | declined hnew hdecide hrest =>
      obtain ⟨mid, first, second, hfirst, hsecond, hresolved, hdeclined⟩ := ih hrest
      exact ⟨mid, _, second, .declined hnew hdecide hfirst, hsecond, hresolved,
        congrArg (call.site :: ·) hdeclined⟩
    | @resolved _ _ _ _ _ r hnew hdecide hrest =>
      obtain ⟨mid, first, second, hfirst, hsecond, hresolved, hdeclined⟩ := ih hrest
      exact ⟨mid, _, second, .resolved hnew hdecide hfirst, hsecond,
        congrArg (resolvedCall call r :: ·) hresolved, hdeclined⟩

theorem sublist_resolved (h : e.Takes cache calls last d) :
    (d.resolved.map ResolvedCall.site).Sublist (calls.map RecognizedCall.site) := by
  induction h with
  | done => exact .slnil
  | known _ _ ih => exact ih.cons _
  | declined _ _ _ ih => exact ih.cons _
  | resolved _ _ _ ih => exact ih.cons_cons _

theorem sublist_declined (h : e.Takes cache calls last d) :
    d.declined.Sublist (calls.map RecognizedCall.site) := by
  induction h with
  | done => exact .slnil
  | known _ _ ih => exact ih.cons _
  | declined _ _ _ ih => exact ih.cons_cons _
  | resolved _ _ _ ih => exact ih.cons _

/-- What is declined is open at the end. -/
theorem contains_of_mem_declined (h : e.Takes cache calls last d)
    (hnodup : (calls.map RecognizedCall.site).Nodup) (hsite : site ∈ d.declined) :
    last.contains site = false := by
  induction h with
  | done => simp at hsite
  | known _ _ ih => exact ih (List.nodup_cons.mp hnodup).2 hsite
  | declined hnew _ hrest ih =>
    obtain ⟨hcall, hnodup⟩ := List.nodup_cons.mp hnodup
    rcases List.mem_cons.mp hsite with rfl | hmem
    · rw [hrest.contains_of_notMem hcall]
      exact hnew
    · exact ih hnodup hmem
  | resolved _ _ _ ih => exact ih (List.nodup_cons.mp hnodup).2 hsite

theorem contains_of_mem_resolved (h : e.Takes cache calls last d)
    (hsite : site ∈ d.resolved.map ResolvedCall.site) :
    cache.contains site = false ∧ last.contains site = true := by
  obtain ⟨call, hcall, rfl⟩ := List.mem_map.mp hsite
  exact ⟨OutcomeCache.contains_eq_false_iff.mpr (h.get?_of_resolved hcall),
    OutcomeCache.contains_eq_true_iff.mpr ⟨_, h.get?_iff.mpr (Or.inr ⟨call, hcall, rfl, rfl⟩)⟩⟩

theorem contains_of_contains (h : e.Takes cache calls last d) (hlast : last.contains site = false) :
    cache.contains site = false := by
  rw [OutcomeCache.contains_eq_false_iff, Option.eq_none_iff_forall_ne_some] at hlast ⊢
  exact fun o ho => hlast o (h.within site o ho)

/-- Of calls in ascending order, those resolved at smaller sites are those resolved before. -/
theorem filter_resolved {mid : OutcomeCache} {first second : Decisions}
    (hfirst : e.Takes cache before mid first) (hsecond : e.Takes mid (call :: after) last second)
    (hascending : ((before ++ call :: after).map RecognizedCall.site).Pairwise (· < ·)) :
    (first.resolved ++ second.resolved).filter (·.site < call.site) = first.resolved := by
  rw [List.map_append, List.pairwise_append] at hascending
  obtain ⟨-, hafter, hbefore⟩ := hascending
  have hsmaller : ∀ r ∈ first.resolved, r.site < call.site := fun r hr =>
    hbefore _ (hfirst.sublist_resolved.subset (List.mem_map_of_mem hr)) _ List.mem_cons_self
  have hlarger : ∀ r ∈ second.resolved, ¬ r.site < call.site := by
    intro r hr
    rcases List.mem_cons.mp (hsecond.sublist_resolved.subset (List.mem_map_of_mem hr)) with
      heq | hmem
    · rw [heq]
      exact Nat.lt_irrefl _
    · exact Nat.not_lt_of_gt ((List.pairwise_cons.mp hafter).1 _ hmem)
  rw [List.filter_append, List.filter_eq_self.mpr (by simpa using hsmaller),
    List.filter_eq_nil_iff.mpr (by simpa using hlarger), List.append_nil]

/-- An open call is decided with what was resolved at smaller sites. -/
theorem decided (h : e.Takes cache calls last d)
    (hascending : (calls.map RecognizedCall.site).Pairwise (· < ·)) (hcall : call ∈ calls)
    (hopen : cache.contains call.site = false) :
    (call.site ∈ d.declined ∧
      e.decide (cache.extend (d.resolved.filter (·.site < call.site))) call = .ok none) ∨
    ∃ r, resolvedCall call r ∈ d.resolved ∧
      e.decide (cache.extend (d.resolved.filter (·.site < call.site))) call = .ok (some r) := by
  obtain ⟨before, after, rfl⟩ := List.append_of_mem hcall
  obtain ⟨mid, first, second, hfirst, hsecond, hresolved, hdeclined⟩ := h.exists_of_append
  rw [hresolved, hdeclined, filter_resolved hfirst hsecond hascending, ← hfirst.eq_extend]
  cases hsecond with
  | known hknown _ =>
    -- none of the calls before has this site, so it would have been known at the start
    have hsite : call.site ∉ before.map RecognizedCall.site := by
      intro hmem
      rw [List.map_append, List.pairwise_append] at hascending
      exact Nat.lt_irrefl _ (hascending.2.2 _ hmem _ List.mem_cons_self)
    rw [hfirst.contains_of_notMem hsite, hopen] at hknown
    simp at hknown
  | declined _ hdecide _ => exact Or.inl ⟨List.mem_append_right _ List.mem_cons_self, hdecide⟩
  | @resolved _ _ _ _ _ r _ hdecide _ =>
    exact Or.inr ⟨r, List.mem_append_right _ List.mem_cons_self, hdecide⟩

/-- A resolved call was resolved by its handler with what was resolved at smaller sites. -/
theorem exists_resolution (h : e.Takes cache calls last d)
    (hascending : (calls.map RecognizedCall.site).Pairwise (· < ·)) {resolved : ResolvedCall}
    (hresolved : resolved ∈ d.resolved) :
    ∃ call ∈ calls, ∃ r, resolved = resolvedCall call r ∧
      e.decide (cache.extend (d.resolved.filter (·.site < resolved.site))) call = .ok (some r) := by
  have hsite := List.mem_map_of_mem (f := ResolvedCall.site) hresolved
  obtain ⟨hopen, hclosed⟩ := h.contains_of_mem_resolved hsite
  obtain ⟨call, hcall, hsame⟩ := List.mem_map.mp (h.sublist_resolved.subset hsite)
  rw [← hsame] at hopen hclosed ⊢
  rcases h.decided hascending hcall hopen with ⟨hdeclined, -⟩ | ⟨r, hmem, hdecide⟩
  · rw [h.contains_of_mem_declined (hascending.imp Nat.ne_of_lt) hdeclined] at hclosed
    simp at hclosed
  · exact ⟨call, hcall, r, List.inj_on_of_nodup_map h.nodup_resolved hresolved hmem hsame.symm,
      hdecide⟩

/-- Taking the recognised calls of some sites in ascending order settles these sites. -/
theorem settles {sites : Set Nat} (h : e.Takes cache calls last d)
    (hascending : (calls.map RecognizedCall.site).Pairwise (· < ·))
    (hcalls : ∀ call ∈ calls, call ∈ e.recognizedCalls)
    (hsites : ∀ site, site ∈ sites ↔ site ∈ calls.map RecognizedCall.site) :
    e.Settles cache sites d where
  cover := by
    ext site
    simp only [Set.mem_union, Set.mem_ofPred_eq]
    constructor
    · rintro ((⟨hsite, -⟩ | hresolved) | hdeclined)
      · exact hsite
      · exact (hsites site).mpr (h.sublist_resolved.subset hresolved)
      · exact (hsites site).mpr (h.sublist_declined.subset hdeclined)
    · intro hsite
      obtain ⟨call, hcall, rfl⟩ := List.mem_map.mp ((hsites site).mp hsite)
      by_cases hknown : cache.contains call.site = true
      · exact Or.inl (Or.inl ⟨hsite, hknown⟩)
      · rcases h.decided hascending hcall (Bool.not_eq_true _ ▸ hknown) with
          ⟨hdeclined, -⟩ | ⟨r, hresolved, -⟩
        · exact Or.inr hdeclined
        · exact Or.inl (Or.inr (List.mem_map_of_mem hresolved))
  open_resolved site hsite := (h.contains_of_mem_resolved hsite).1
  open_declined site hsite :=
    h.contains_of_contains (h.contains_of_mem_declined (hascending.imp Nat.ne_of_lt) hsite)
  disjoint site hresolved hdeclined := by
    have hopen := h.contains_of_mem_declined (hascending.imp Nat.ne_of_lt) hdeclined
    rw [(h.contains_of_mem_resolved hresolved).2] at hopen
    simp at hopen
  resolved_ascending := hascending.sublist h.sublist_resolved
  declined_ascending := hascending.sublist h.sublist_declined
  decided site callee entry frame hsite hopen hi hentry hframe := by
    have hcall : e.recognize? site = some ⟨site, callee, frame, entry⟩ :=
      recognize?_eq_some_iff.mpr ⟨rfl, hi, hentry, hframe⟩
    obtain ⟨taken, htaken, hsame⟩ := List.mem_map.mp ((hsites _).mp hsite)
    obtain rfl : taken = ⟨site, callee, frame, entry⟩ :=
      eq_of_site_eq (hcalls taken htaken) (mem_recognizedCalls_iff.mpr hcall) hsame
    rcases h.decided hascending htaken hopen with ⟨hdeclined, hdecide⟩ | ⟨r, hresolved, hdecide⟩
    · obtain ⟨context, hmake, hhandler⟩ := decide_eq_ok_iff.mp hdecide
      exact ⟨context, none, hmake, hhandler, hdeclined⟩
    · obtain ⟨context, hmake, hhandler⟩ := decide_eq_ok_iff.mp hdecide
      exact ⟨context, some r, hmake, hhandler, hresolved⟩

end Takes

/-- An evaluation that is refused has taken the calls before the one that is refused. -/
theorem exists_of_run_eq_error {error : Error} (h : e.run calls cache = (last, .error error)) :
    ∃ before call after d, calls = before ++ call :: after ∧ e.Takes cache before last d ∧
      last.contains call.site = false ∧ e.decide last call = .error error := by
  induction calls generalizing cache with
  | nil => simp [run] at h
  | cons call calls ih =>
    rw [run] at h
    split at h
    · next hknown =>
      obtain ⟨before, refused, after, d, rfl, htakes, hrefused⟩ := ih h
      exact ⟨call :: before, refused, after, d, rfl, .known hknown htakes, hrefused⟩
    · next hnew =>
      rw [Bool.not_eq_true] at hnew
      split at h
      · next hdecide =>
        obtain ⟨rfl, herror⟩ := Prod.mk.inj h
        obtain rfl := Except.error.inj herror
        exact ⟨[], call, calls, _, rfl, .done, hnew, hdecide⟩
      · next hdecide =>
        obtain ⟨rfl, hresult⟩ := Prod.mk.inj h
        obtain ⟨before, refused, after, d, rfl, htakes, hrefused⟩ :=
          ih (Prod.ext rfl (eq_error_of_map hresult))
        exact ⟨call :: before, refused, after, _, rfl, .declined hnew hdecide htakes, hrefused⟩
      · next hdecide =>
        obtain ⟨rfl, hresult⟩ := Prod.mk.inj h
        obtain ⟨before, refused, after, d, rfl, htakes, hrefused⟩ :=
          ih (Prod.ext rfl (eq_error_of_map hresult))
        exact ⟨call :: before, refused, after, _, rfl, .resolved hnew hdecide htakes, hrefused⟩

theorem exists_of_evaluate_eq_error {error : Error} (h : e.evaluate cache = (last, .error error)) :
    ∃ before call after d, e.recognizedCalls = before ++ call :: after ∧
      e.Takes cache before last d ∧ cache.contains call.site = false ∧
      e.decide last call = .error error := by
  have hrun : e.run e.recognizedCalls cache = (last, .error error) := by
    rw [evaluate] at h
    obtain ⟨rfl, hresult⟩ := Prod.mk.inj h
    exact Prod.ext rfl (eq_error_of_map hresult)
  obtain ⟨before, call, after, d, hsplit, htakes, hopen, hdecide⟩ := exists_of_run_eq_error hrun
  exact ⟨before, call, after, d, hsplit, htakes, htakes.contains_of_contains hopen, hdecide⟩

/--
An evaluation that refuses nothing settles every recognised call. One that is refused has settled
the calls before the first one that has no context or whose handler refuses it. What is added to the
cache is in either case the outcomes of the calls that were resolved.
-/
theorem evaluate_settles (e : Evaluator) (cache : OutcomeCache) :
    (∀ last report, e.evaluate cache = (last, .ok report) →
      e.Settles cache {site | e.Recognizes site} ⟨report.resolved, report.declined⟩ ∧
      report.recognized = {site | e.Recognizes site}.ncard ∧
      last = cache.extend report.resolved ∧
      ∀ site o, last.get? site = some o ↔ cache.get? site = some o ∨
        ∃ r ∈ report.resolved, r.site = site ∧ r.outcome = o) ∧
    ∀ last error, e.evaluate cache = (last, .error error) →
      ∃ site callee entry frame d, cache.contains site = false ∧
        e.graph.instruction? site = some (.invoke callee) ∧
        e.catalog.get? callee.signature = some entry ∧ e.graph.frame? site = some frame ∧
        (CallContext.make site callee frame = .error error ∨
          ∃ context, CallContext.make site callee frame = .ok context ∧
            entry.handler (e.scope last) context = .error error) ∧
        e.Settles cache {earlier | e.Recognizes earlier ∧ earlier < site} d ∧
        last = cache.extend d.resolved ∧
        ∀ site o, last.get? site = some o ↔ cache.get? site = some o ∨
          ∃ r ∈ d.resolved, r.site = site ∧ r.outcome = o := by
  refine ⟨fun last report h => ?_, fun last error h => ?_⟩
  · obtain ⟨d, htakes, rfl⟩ := takes_of_evaluate h
    exact ⟨htakes.settles e.sites_ascending (fun _ hcall => hcall) fun _ => mem_sites_iff.symm,
      e.length_recognizedCalls, htakes.eq_extend, fun _ _ => htakes.get?_iff⟩
  · obtain ⟨before, call, after, d, hsplit, htakes, hopen, hdecide⟩ := exists_of_evaluate_eq_error h
    have hcall : call ∈ e.recognizedCalls := by simp [hsplit]
    obtain ⟨-, hi, hentry, hframe⟩ := recognize?_eq_some_iff.mp (mem_recognizedCalls_iff.mp hcall)
    refine ⟨call.site, call.callee, call.entry, call.frame, d, hopen, hi, hentry, hframe,
      decide_eq_error_iff.mp hdecide, htakes.settles ?_ ?_ fun site => ?_, htakes.eq_extend,
      fun _ _ => htakes.get?_iff⟩
    · have hascending := e.sites_ascending
      rw [hsplit, List.map_append] at hascending
      exact (List.pairwise_append.mp hascending).1
    · intro taken htaken
      rw [hsplit]
      exact List.mem_append_left _ htaken
    · exact mem_before_iff hsplit

end Evaluator

end CallFold
