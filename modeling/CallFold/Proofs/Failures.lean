import CallFold.Proofs.Independence
import CallFold.Proofs.RoundTrip
import Mathlib

/-!
# Methods that fail

When the analysis of a method fails, nothing is kept of it, whatever it had resolved before it
failed. All that it does to the session is to set the method aside, and perhaps to load its class.

If methods are analysed in turn, this is the whole change from before its turn to after it
(`SetsAside`). If they are analysed at the same time, other methods write to the logs meanwhile, and
at every moment of the pass the logs hold just what these have written (`FailsIn`).

From then on the method stays as it is, and every pass that is asked for it counts it as skipped and
does what it would do without it (`runPass_failed_final`).
-/

namespace CallFold

/-! ## What a method does that fails -/

/-- An effect that writes to no log and replaces no state. -/
inductive Effect.Silent : Effect → Prop where
  | load : Silent .load
  | setAside (e : Error) : Silent (.setAside e)

theorem Task.outcome_actAll (effects : List Effect) (next : Task) (v : View) :
    (actAll effects next).outcome v = next.outcome (effects.foldl View.after v) := by
  induction effects generalizing v with
  | nil => rfl
  | cons effect effects ih => exact ih (v.after effect)

namespace Session

variable {s s' t : Session} {metadata : Metadata} {key other : MethodKey} {e : Error}
  {methods keys : List MethodKey} {summary : PassSummary} {trace : List (MethodKey × Effect)}

/-- Calls are written down only if the evaluation of all of them succeeds. -/
theorem evaluation_eq_failing {graph : FrameGraph} {cache : OutcomeCache} {v : View}
    (h : (s.evaluation metadata graph cache).outcome v = .failed) :
    ∃ e, s.evaluation metadata graph cache = failing e := by
  unfold evaluation at h ⊢
  dsimp only at h ⊢
  split at h
  · next e _ => exact ⟨e, rfl⟩
  · rw [Task.outcome_actAll] at h
    cases h

/-- A method that fails only loads its class, if it must, and sets itself aside. -/
theorem moves_of_failed {v : View} (h : (s.analysis metadata).outcome v = .failed) :
    v.failure = none ∧ ∃ e, (s.analysis metadata).effects v = [.setAside e] ∨
      (s.analysis metadata).effects v = [.load, .setAside e] := by
  obtain ⟨failure, state, body⟩ := v
  cases failure with
  | some _ => cases h
  | none =>
    refine ⟨rfl, ?_⟩
    cases state with
    | some state =>
      simp only [analysis, Task.outcome, Task.effects] at h ⊢
      split at h
      · cases h
      · next hopen =>
        obtain ⟨e, he⟩ := evaluation_eq_failing h
        rw [if_neg hopen, he]
        exact ⟨e, Or.inl rfl⟩
    | none =>
      simp only [analysis, Task.outcome, Task.effects] at h ⊢
      split at h
      · next e => exact ⟨e, Or.inr rfl⟩
      · next body =>
        split at h
        · next e _ => exact ⟨.frame e, Or.inr rfl⟩
        · obtain ⟨e, he⟩ := evaluation_eq_failing h
          rw [he]
          exact ⟨e, Or.inr rfl⟩

/-! ### Among other methods -/

/-- What the other methods do in a trace. -/
def others (key : MethodKey) (trace : List (MethodKey × Effect)) : List (MethodKey × Effect) :=
  trace.filter fun e => e.1 ≠ key

theorem own_others (h : other ≠ key) (trace : List (MethodKey × Effect)) :
    own other (others key trace) = own other trace := by
  rw [own, own, others, List.filter_filter]
  congr 1
  refine List.filter_congr fun e _ => ?_
  by_cases heq : e.1 = other <;> simp [heq, h]

/-- Sessions that differ at most in which methods are set aside and which classes are loaded. -/
def SameBooks (s t : Session) : Prop :=
  ∃ store failures, t = { s with store, failures }

namespace SameBooks

variable {effect : Effect}

theorem perform (h : SameBooks s t) (key : MethodKey) (effect : Effect) :
    SameBooks (s.perform key effect) (t.perform key effect) := by
  obtain ⟨store, failures, rfl⟩ := h
  cases effect <;> exact ⟨_, _, rfl⟩

theorem perform_silent (h : SameBooks s t) (key : MethodKey) (hsilent : effect.Silent) :
    SameBooks s (t.perform key effect) := by
  obtain ⟨store, failures, rfl⟩ := h
  cases hsilent <;> exact ⟨_, _, rfl⟩

/-- The books do not show whether a method with silent effects takes part. -/
theorem performAll (h : SameBooks s t) (hsilent : ∀ effect ∈ own key trace, effect.Silent) :
    SameBooks (s.performAll (others key trace)) (t.performAll trace) := by
  induction trace generalizing s t with
  | nil => exact h
  | cons e trace ih =>
    obtain ⟨k, effect⟩ := e
    by_cases hk : k = key
    · subst hk
      rw [own_cons_self] at hsilent
      rw [others, List.filter_cons_of_neg (by simp)]
      exact ih (h.perform_silent k (hsilent effect List.mem_cons_self))
        fun effect' hmem => hsilent effect' (List.mem_cons_of_mem _ hmem)
    · rw [own_cons_of_ne hk] at hsilent
      rw [others, List.filter_cons_of_pos (by simpa using hk)]
      exact ih (h.perform k effect) hsilent

end SameBooks

/-- What belongs to a method is as it was, except that the method was set aside. -/
structure Failed (key : MethodKey) (e : Error) (s t : Session) : Prop where
  fresh : s.failure? key = none
  failure : t.failure? key = some e
  state : t.states.get? key = s.states.get? key
  records : t.resolutions.filter (fun r => r.method = key) =
    s.resolutions.filter fun r => r.method = key
  tags : t.tags.filter (fun tag => tag.method = key) = s.tags.filter fun tag => tag.method = key

/--
A method fails in a trace. It loads its class, if it must, and is set aside. At every moment the
books are what the other methods alone made of them, and so is what is set aside and loaded in the
end, the method and its class apart.
-/
structure FailsIn (key : MethodKey) (e : Error) (s : Session)
    (trace : List (MethodKey × Effect)) : Prop where
  moves : own key trace = [.setAside e] ∨ own key trace = [.load, .setAside e]
  books : ∀ before, before <+: trace →
    SameBooks (s.performAll (others key before)) (s.performAll before)
  method : Failed key e s (s.performAll trace)
  failures : ∀ other, other ≠ key →
    (s.performAll trace).failure? other = (s.performAll (others key trace)).failure? other
  classes : ∀ type, type ≠ key.declaringType →
    (s.performAll trace).store.loaded.get? type =
      (s.performAll (others key trace)).store.loaded.get? type

theorem silent_of_mem_moves
    (hmoves : own key trace = [.setAside e] ∨ own key trace = [.load, .setAside e])
    {effect : Effect} (h : effect ∈ own key trace) : effect.Silent := by
  rcases hmoves with hmoves | hmoves <;> rw [hmoves] at h
  · obtain rfl := List.mem_singleton.mp h
    exact .setAside e
  · rcases List.mem_cons.mp h with rfl | h
    · exact .load
    · obtain rfl := List.mem_singleton.mp h
      exact .setAside e

theorem failed_performAll (hs : s.store.Faithful s.load) (hfresh : s.failure? key = none)
    (hmoves : own key trace = [.setAside e] ∨ own key trace = [.load, .setAside e]) :
    Failed key e s (s.performAll trace) := by
  have hview : (s.performAll trace).view key = { s.view key with failure := some e } := by
    rw [view_performAll hs]
    rcases hmoves with hmoves | hmoves <;> rw [hmoves] <;> rfl
  have hrecords : (own key trace).flatMap (Effect.records key) = [] := by
    rcases hmoves with hmoves | hmoves <;> rw [hmoves] <;> rfl
  have htags : (own key trace).flatMap (Effect.tags key) = [] := by
    rcases hmoves with hmoves | hmoves <;> rw [hmoves] <;> rfl
  refine ⟨hfresh, congrArg View.failure hview, congrArg View.state hview, ?_, ?_⟩
  · rw [resolutions_performAll, List.filter_append, filter_records, hrecords, List.append_nil]
  · rw [tags_performAll, List.filter_append, filter_tags, htags, List.append_nil]

theorem failsIn_of_moves (hs : s.store.Faithful s.load) (hfresh : s.failure? key = none)
    (hmoves : own key trace = [.setAside e] ∨ own key trace = [.load, .setAside e]) :
    FailsIn key e s trace where
  moves := hmoves
  books before hbefore := by
    obtain ⟨after, rfl⟩ := hbefore
    have hbooks : SameBooks s s := ⟨s.store, s.failures, rfl⟩
    refine hbooks.performAll fun effect heffect => silent_of_mem_moves hmoves ?_
    rw [own_append]
    exact List.mem_append_left _ heffect
  method := failed_performAll hs hfresh hmoves
  failures other hne := by
    have hview : (s.performAll trace).view other = (s.performAll (others key trace)).view other := by
      rw [view_performAll hs, view_performAll hs, own_others hne]
    exact congrArg View.failure hview
  classes type hne := by
    refine Option.ext fun c => ?_
    rw [get?_loaded_performAll_iff hs, get?_loaded_performAll_iff hs]
    -- a class of another type is loaded by another method
    refine or_congr_right (and_congr_right fun _ => exists_congr fun k => and_congr_right ?_)
    rintro rfl
    have hk : k ≠ key := fun heq => hne (congrArg MethodKey.declaringType heq)
    rw [others, List.mem_filter]
    simp [hk]

/-! ## Setting a method aside at its turn -/

/-- The whole change that a failed analysis of a method makes at its turn. -/
structure SetsAside (key : MethodKey) (e : Error) (s s' : Session) : Prop where
  fresh : s.failure? key = none
  change : s' = { s with store := s'.store, failures := s.failures.insert key e }
  store : s.store.Grows s.load key.declaringType s'.store

theorem setsAside_of_failed (h : s.analyzeMethod metadata key = (.failed, s')) :
    ∃ e, SetsAside key e s s' := by
  have hanalyzes := analyzes_analyzeMethod s metadata key
  rw [h] at hanalyzes
  cases hanalyzes with
  | @failed store e hopen hstore =>
    refine ⟨e, ?_, rfl, hstore⟩
    exact Option.isNone_iff_eq_none.mp (Option.isSome_eq_false_iff.mp hopen)

theorem SetsAside.failure (h : SetsAside key e s s') : s'.failure? key = some e := by
  rw [h.change]
  exact Table.get?_insert_self s.failures key e

/-- A method on the list of failures failed when it was its turn. -/
theorem exists_turn_of_mem_failed (h : key ∈ (analyzeAll metadata keys summary s).1.failed) :
    key ∈ summary.failed ∨ ∃ before after, keys = before ++ key :: after ∧
      ((analyzeAll metadata before summary s).2.analyzeMethod metadata key).1 = .failed := by
  induction keys generalizing summary s with
  | nil => exact Or.inl h
  | cons k keys ih =>
    rw [analyzeAll_cons] at h
    rcases ih h with hsummary | ⟨before, after, rfl, hfailed⟩
    · cases houtcome : (s.analyzeMethod metadata k).1 with
      | skipped | analyzed _ =>
        rw [houtcome] at hsummary
        exact Or.inl hsummary
      | failed =>
        rw [houtcome] at hsummary
        rcases List.mem_append.mp hsummary with hold | hnew
        · exact Or.inl hold
        · obtain rfl := List.mem_singleton.mp hnew
          exact Or.inr ⟨[], keys, rfl, houtcome⟩
    · exact Or.inr ⟨k :: before, after, rfl, hfailed⟩

/-! ## Skipping a method -/

theorem analyzeMethod_of_contains_failures (h : s.failures.contains key = true)
    (metadata : Metadata) : s.analyzeMethod metadata key = (.skipped, s) := by
  rw [analyzeMethod_eq, h, Bool.true_or, if_pos rfl]

/-- A method that was counted as skipped before the others are analysed is still counted after. -/
theorem analyzeAll_add_skipped (metadata : Metadata) (keys : List MethodKey) (key : MethodKey)
    (summary : PassSummary) (s : Session) :
    analyzeAll metadata keys (summary.add key .skipped) s =
      ((analyzeAll metadata keys summary s).1.add key .skipped,
        (analyzeAll metadata keys summary s).2) := by
  induction keys generalizing summary s with
  | nil => rfl
  | cons k keys ih =>
    have hadd : ∀ outcome, (summary.add key .skipped).add k outcome =
        (summary.add k outcome).add key .skipped := by
      intro outcome
      cases outcome <;> rfl
    rw [analyzeAll_cons, analyzeAll_cons, hadd]
    exact ih _ _

/-- A method that was set aside is counted as skipped at its turn, and nothing else comes of it. -/
theorem analyzeAll_of_contains_failures (h : s.failures.contains key = true) (metadata : Metadata)
    (before after : List MethodKey) (summary : PassSummary) :
    analyzeAll metadata (before ++ key :: after) summary s =
      ((analyzeAll metadata (before ++ after) summary s).1.add key .skipped,
        (analyzeAll metadata (before ++ after) summary s).2) := by
  have hevolves : Evolves (fun _ _ => True) s (analyzeAll metadata before summary s).2 :=
    Evolves.refl.analyzeAll (fun _ _ => trivial) summary
  have hsame := hevolves.sameFor (Or.inl h)
  rw [← hsame.contains_failures] at h
  rw [analyzeAll_append, analyzeAll_append, analyzeAll_cons,
    analyzeMethod_of_contains_failures h metadata]
  exact analyzeAll_add_skipped metadata after key _ _

theorem newKeys_filter_ne {seen seen' : List MethodKey}
    (hseen : ∀ k, k ≠ key → (k ∈ seen ↔ k ∈ seen')) :
    newKeys seen (keys.filter (· ≠ key)) = (newKeys seen' keys).filter (· ≠ key) := by
  induction keys generalizing seen seen' with
  | nil => rfl
  | cons k keys ih =>
    by_cases hk : k = key
    · subst hk
      rw [List.filter_cons_of_neg (by simp), newKeys]
      split
      · exact ih hseen
      · rw [List.filter_cons_of_neg (by simp)]
        refine ih fun k' hne => ?_
        rw [hseen k' hne, List.mem_cons, or_iff_right hne]
    · rw [List.filter_cons_of_pos (by simpa using hk), newKeys, newKeys]
      by_cases hmem : k ∈ seen'
      · rw [if_pos ((hseen k hk).mpr hmem), if_pos hmem]
        exact ih hseen
      · rw [if_neg fun h => hmem ((hseen k hk).mp h), if_neg hmem,
          List.filter_cons_of_pos (by simpa using hk)]
        refine congrArg (k :: ·) (ih fun k' hne => ?_)
        rw [List.mem_cons, List.mem_cons, hseen k' hne]

/-- A pass without a method takes the other ones in the same order. -/
theorem distinctKeys_filter_ne {before after : List MethodKey}
    (h : distinctKeys methods = before ++ key :: after) :
    distinctKeys (methods.filter (· ≠ key)) = before ++ after := by
  have hnodup := nodup_distinctKeys methods
  have hfilter : distinctKeys (methods.filter (· ≠ key)) =
      (distinctKeys methods).filter (· ≠ key) := newKeys_filter_ne fun _ _ => Iff.rfl
  rw [h, List.nodup_middle, List.nodup_cons, List.mem_append, not_or] at hnodup
  obtain ⟨⟨hbefore, hafter⟩, -⟩ := hnodup
  rw [hfilter, h, List.filter_append, List.filter_cons_of_neg (by simp)]
  congr 1
  · refine List.filter_eq_self.mpr fun k hk => ?_
    simpa using fun heq : k = key => hbefore (heq ▸ hk)
  · refine List.filter_eq_self.mpr fun k hk => ?_
    simpa using fun heq : k = key => hafter (heq ▸ hk)

/-- A pass counts a method that was set aside as skipped, and is otherwise a pass without it. -/
theorem passInTurn_of_contains_failures (h : s.failures.contains key = true)
    (henabled : s.config.enabled = true) (metadata : Metadata) (hkey : key ∈ methods) :
    s.passInTurn metadata methods =
      ((s.passInTurn metadata (methods.filter (· ≠ key))).1.add key .skipped,
        (s.passInTurn metadata (methods.filter (· ≠ key))).2) := by
  obtain ⟨before, after, hsplit⟩ := List.append_of_mem (mem_distinctKeys_iff.mpr hkey)
  simp only [passInTurn, henabled, if_true, hsplit, distinctKeys_filter_ne hsplit]
  exact analyzeAll_of_contains_failures (s := { s with passes := s.passes + 1 }) h metadata before
    after _

/-- A pass skips a method: it counts it and otherwise does what a pass without it does. -/
structure Skips (s : Session) (metadata : Metadata) (methods : List MethodKey) (key : MethodKey) :
    Prop where
  summary : (s.runPass metadata methods).1 =
    (s.runPass metadata (methods.filter (· ≠ key))).1.add key .skipped
  session : Rearranged (s.runPass metadata (methods.filter (· ≠ key))).2
    (s.runPass metadata methods).2
  inTurn : s.config.parallel = false →
    (s.runPass metadata methods).2 = (s.runPass metadata (methods.filter (· ≠ key))).2

theorem skips_of_contains_failures (hs : s.Sound) (h : s.failures.contains key = true)
    (henabled : s.config.enabled = true) (metadata : Metadata) (hkey : key ∈ methods) :
    Skips s metadata methods key := by
  have hturns := passInTurn_of_contains_failures h henabled metadata hkey
  obtain ⟨hsummary, hreordered⟩ := runPass_reordered hs metadata methods
  obtain ⟨hsummary', hreordered'⟩ := runPass_reordered hs metadata (methods.filter (· ≠ key))
  rw [hturns] at hsummary hreordered
  refine ⟨?_, hreordered'.rearranged.symm.trans hreordered.rearranged, fun hsequential => ?_⟩
  · rw [hsummary, hsummary']
  · rw [runPass_of_sequential hsequential, runPass_of_sequential hsequential, hturns]

/-! ## The pass in which a method fails -/

theorem mem_failed_foldl {results : List (MethodKey × MethodPass)} :
    key ∈ (results.foldl (fun summary r => summary.add r.1 r.2) summary).failed ↔
      key ∈ summary.failed ∨ (key, .failed) ∈ results := by
  induction results generalizing summary with
  | nil => simp
  | cons r results ih =>
    obtain ⟨k, outcome⟩ := r
    rw [List.foldl_cons, ih]
    cases outcome <;> simp [PassSummary.add, or_assoc]

theorem enabled_of_mem_failed (h : key ∈ (s.runPass metadata methods).1.failed) :
    s.config.enabled = true := by
  by_contra hdisabled
  simp [runPass, hdisabled] at h

/-- A method on the list of failures fails in whatever order the workers of the pass move. -/
theorem exists_failsIn (hs : s.Sound) (hfailed : key ∈ (s.runPass metadata methods).1.failed) :
    ∃ e, ∀ trace results t, Executes (s.workers metadata (distinctKeys methods))
        { s with passes := s.passes + 1 } trace (finished results) t →
      FailsIn key e { s with passes := s.passes + 1 } trace := by
  obtain ⟨_, results, hpass, hsummary⟩ :=
    exists_executes (enabled_of_mem_failed hfailed) metadata methods
  have hkeys := nodup_key_workers s metadata methods
  rw [hsummary, mem_failed_foldl] at hfailed
  have hresult := hfailed.resolve_left List.not_mem_nil
  rw [hpass.results_eq hs.store hkeys] at hresult
  -- the task of its worker comes to a failure, and what the worker does is what this task does
  obtain ⟨w, hw, heq⟩ := List.mem_map.mp hresult
  obtain ⟨rfl, houtcome⟩ := Prod.mk.inj heq
  have htask : w.task = s.analysis metadata := by
    obtain ⟨k, -, rfl⟩ := List.mem_map.mp hw
    rfl
  rw [htask] at houtcome
  obtain ⟨hfresh, e, he⟩ := moves_of_failed houtcome
  refine ⟨e, fun trace results t hexecutes => failsIn_of_moves hs.store hfresh ?_⟩
  rw [hexecutes.own_trace hs.store hkeys hw, htask]
  exact he

/-- If methods are analysed in turn, the method fails at its turn. -/
theorem exists_setsAside (hsequential : s.config.parallel = false)
    (hfailed : key ∈ (s.runPass metadata methods).1.failed)
    (hfailure : (s.runPass metadata methods).2.failure? key = some e) :
    ∃ before after mid mid', distinctKeys methods = before ++ key :: after ∧
      (analyzeAll metadata before ⟨s.passes + 1, 0, 0, 0, []⟩
        { s with passes := s.passes + 1 }).2 = mid ∧
      mid.analyzeMethod metadata key = (.failed, mid') ∧ SetsAside key e mid mid' := by
  have hpass : s.runPass metadata methods = analyzeAll metadata (distinctKeys methods)
      ⟨s.passes + 1, 0, 0, 0, []⟩ { s with passes := s.passes + 1 } := by
    rw [runPass_of_sequential hsequential, passInTurn, if_pos (enabled_of_mem_failed hfailed)]
  rw [hpass] at hfailed hfailure
  obtain hnil | ⟨before, after, hsplit, hturn⟩ := exists_turn_of_mem_failed hfailed
  · exact absurd hnil List.not_mem_nil
  generalize hmid : (analyzeAll metadata before ⟨s.passes + 1, 0, 0, 0, []⟩
    { s with passes := s.passes + 1 }).2 = mid at hturn
  have hfails : mid.analyzeMethod metadata key = (.failed, (mid.analyzeMethod metadata key).2) :=
    Prod.ext hturn rfl
  obtain ⟨e', haside⟩ := setsAside_of_failed hfails
  -- the failure is still there at the end of the pass
  have hevolves : Evolves (fun _ _ => True) (mid.analyzeMethod metadata key).2
      (analyzeAll metadata (distinctKeys methods) ⟨s.passes + 1, 0, 0, 0, []⟩
        { s with passes := s.passes + 1 }).2 := by
    rw [hsplit, analyzeAll_append, hmid]
    exact Evolves.refl.analyzeAll (fun _ _ => trivial) _
  have hsame := hevolves.sameFor (Or.inl (congrArg Option.isSome haside.failure))
  obtain rfl : e' = e := by
    rw [hsame.failure, haside.failure] at hfailure
    exact Option.some.inj hfailure
  exact ⟨before, after, mid, _, hsplit, hmid, hfails, haside⟩

/--
A method that fails in a pass leaves nothing behind but its failure, in whatever order the workers
of the pass move. After that pass and any later ones the method is as it was then, and every pass
skips it.
-/
theorem runPass_failed_final (hs : s.Reachable)
    (hfailed : key ∈ (s.runPass metadata methods).1.failed) :
    ∃ e, (∃ trace results, Executes (s.workers metadata (distinctKeys methods))
          { s with passes := s.passes + 1 } trace (finished results)
          (s.runPass metadata methods).2) ∧
      (∀ trace results t, Executes (s.workers metadata (distinctKeys methods))
          { s with passes := s.passes + 1 } trace (finished results) t →
        FailsIn key e { s with passes := s.passes + 1 } trace) ∧
      Failed key e s (s.runPass metadata methods).2 ∧
      (s.config.parallel = false →
        ∃ before after mid mid', distinctKeys methods = before ++ key :: after ∧
          (analyzeAll metadata before ⟨s.passes + 1, 0, 0, 0, []⟩
            { s with passes := s.passes + 1 }).2 = mid ∧
          mid.analyzeMethod metadata key = (.failed, mid') ∧ SetsAside key e mid mid') ∧
      ∀ later t, (runAll later (s.runPass metadata methods).2).2 = t →
        SameFor key (s.runPass metadata methods).2 t ∧
        ∀ metadata' methods', key ∈ methods' → Skips t metadata' methods' key := by
  obtain ⟨trace, results, hpass, -⟩ :=
    exists_executes (enabled_of_mem_failed hfailed) metadata methods
  obtain ⟨e, hfails⟩ := exists_failsIn hs.sound hfailed
  have hmethod : Failed key e s (s.runPass metadata methods).2 := by
    have hmethod := (hfails trace results _ hpass).method
    rw [← hpass.eq_performAll] at hmethod
    exact ⟨hmethod.fresh, hmethod.failure, hmethod.state, hmethod.records, hmethod.tags⟩
  refine ⟨e, ⟨trace, results, hpass⟩, hfails, hmethod,
    fun hsequential => exists_setsAside hsequential hfailed hmethod.failure, ?_⟩
  rintro later t rfl
  -- a method that was set aside is left alone in the whole course that follows
  have hnext := (evolves_runPass hs.sound metadata methods).sound hs.sound
  have hlater := evolves_runAll hnext later
  have haside : (s.runPass metadata methods).2.failures.contains key = true :=
    congrArg Option.isSome hmethod.failure
  have hsame := hlater.sameFor (Or.inl haside)
  refine ⟨hsame, fun metadata' methods' hkey => ?_⟩
  refine skips_of_contains_failures (hlater.sound hnext) ?_ ?_ metadata' hkey
  · rw [hsame.contains_failures]
    exact haside
  · rw [hlater.sameSettings.config, (sameSettings_runPass s metadata methods).config]
    exact enabled_of_mem_failed hfailed

/-! ### A method that fails after it was resolved in part -/

/-- A call of a method without result. -/
def hook (name : String) (parameters : List Descriptor)
    (h : MethodDescriptor.WellFormed ⟨parameters, none⟩ := by decide) : MethodRef where
  kind := .static
  signature := ⟨"app/Hooks", name, MethodDescriptor.render ⟨parameters, none⟩⟩
  descriptor := ⟨parameters, none⟩
  parsed := MethodDescriptor.parse_render h

/-- A call that takes a type. -/
def hookType (name : String) : MethodRef := hook name [.object "java/lang/Class"]

/-- Resolves a call if its argument is a type that is known. -/
def resolveKnown : Handler := fun scope context => do
  let some type := scope.infer .type (← context.parameter 0) | return none
  return some ⟨.resolved (.type type), .classLookup type.render⟩

/-- Resolves every call. -/
def resolveAlways : Handler := fun _ _ =>
  return some ⟨.resolved (.members []), .classLookup "app.Hooks"⟩

/-- Refuses a call if its argument is a type that is known. -/
def refuseKnown : Handler := fun scope context => do
  let some type := scope.infer .type (← context.parameter 0) | return none
  throw (.refused ("Unusable type " ++ type.render))

/-- Recognises the hooks, of which only the first may be replaced. -/
def hooks : Catalog :=
  ((Catalog.empty.register (hookType "see").signature resolveKnown true).register
    (hook "note" []).signature resolveAlways false).register
    (hookType "check").signature refuseKnown false

/-- Looks at a class, makes a note, and then checks the class. -/
def seeAndCheck : MethodBody where
  name := "seeAndCheck"
  descriptor := ⟨[], none⟩
  flags := .static
  maxLocals := 0
  code := #[.ldc (.type (.object "app/Late")), .invoke (hookType "see"), .invoke (hook "note" []),
    .ldc (.type (.object "app/Late")), .invoke (hookType "check"), .ret false]

def seeAndCheckKey : MethodKey := ⟨"app/Boot", "seeAndCheck", "()V"⟩

/-- Looks at a class. -/
def look : MethodBody where
  name := "look"
  descriptor := ⟨[], none⟩
  flags := .static
  maxLocals := 0
  code := #[.ldc (.type (.object "app/Late")), .invoke (hookType "see"), .ret false]

def lookKey : MethodKey := ⟨"app/Boot", "look", "()V"⟩

/-- In the second pass the second worker moves after the first one has asked for its state. -/
def lookMeanwhile : Schedule
  | 2 => [0, 0, 1, 1, 1, 1, 1, 1, 1]
  | _ => []

/-- A session after a pass over the first method in which the class was not known yet. -/
def afterNote : Session :=
  serveAll [.pass (knowing []) [seeAndCheckKey]]
    (fresh {} (.ofClasses [⟨"app/Boot", [seeAndCheck, look]⟩]) hooks [] lookMeanwhile)

/-- A catalog takes the place of the reflective look-ups, which need not be evaluated then. -/
theorem withCatalog_start (config : Config) (load : Loader) (catalog : Catalog)
    (schedule : Schedule) :
    (start config load schedule).withCatalog catalog = ⟨config, load, catalog, catalog.safeCalls,
      schedule, .empty, .empty, .empty, [], [], [], 0⟩ := rfl

/--
The note is resolved in the first pass. When the class is known, looking at it is resolved too, but
the check refuses it. Meanwhile the other method has looked at the class, and this is recorded. The
note stays, and the look of the first method does not become known in any later pass.
-/
theorem runPass_failed_final_afterNote :
    afterNote.Reachable ∧ afterNote.config.parallel = true ∧
      afterNote.resolutions.map (fun r => (r.method, r.site)) = [(seeAndCheckKey, 2)] ∧
      seeAndCheckKey ∈
        (afterNote.runPass (knowing ["app.Late"]) [seeAndCheckKey, lookKey]).1.failed ∧
      (afterNote.runPass (knowing ["app.Late"]) [seeAndCheckKey, lookKey]).2.resolutions.map
        (fun r => (r.method, r.site)) = [(seeAndCheckKey, 2), (lookKey, 1)] ∧
      ∀ later t, (runAll later
          (afterNote.runPass (knowing ["app.Late"]) [seeAndCheckKey, lookKey]).2).2 = t →
        t.outcome? seeAndCheckKey 2 = some (.resolved (.members [])) ∧
          t.outcome? seeAndCheckKey 1 = none ∧
          (t.runPass (knowing ["app.Late"]) [seeAndCheckKey]).1.skipped = 1 := by
  have hreachable : afterNote.Reachable := ⟨_, _, _, _, _, _, rfl⟩
  have hfirst : afterNote.config.parallel = true ∧
      afterNote.outcome? seeAndCheckKey 2 = some (.resolved (.members [])) ∧
      afterNote.outcome? seeAndCheckKey 1 = none ∧
      afterNote.resolutions.map (fun r => (r.method, r.site)) = [(seeAndCheckKey, 2)] := by
    rw [afterNote, fresh, withCatalog_start]
    exact ⟨by cbv, by cbv, by cbv, by cbv⟩
  obtain ⟨hparallel, hnote, hlook, hrecords⟩ := hfirst
  have hpass : (afterNote.runPass (knowing ["app.Late"]) [seeAndCheckKey, lookKey]).1.failed =
      [seeAndCheckKey] ∧
      (afterNote.runPass (knowing ["app.Late"]) [seeAndCheckKey, lookKey]).2.resolutions.map
        (fun r => (r.method, r.site)) = [(seeAndCheckKey, 2), (lookKey, 1)] := by
    rw [afterNote, fresh, withCatalog_start]
    exact ⟨by cbv, by cbv⟩
  have hmem : seeAndCheckKey ∈
      (afterNote.runPass (knowing ["app.Late"]) [seeAndCheckKey, lookKey]).1.failed := by
    rw [hpass.1]
    exact List.mem_cons_self
  refine ⟨hreachable, hparallel, hrecords, hmem, hpass.2, fun later t ht => ?_⟩
  obtain ⟨e, -, -, hfailed, -, hlater⟩ := runPass_failed_final hreachable hmem
  obtain ⟨hsame, hskips⟩ := hlater later t ht
  have hkept : ∀ site, t.outcome? seeAndCheckKey site = afterNote.outcome? seeAndCheckKey site := by
    intro site
    rw [hsame.outcome?, outcome?, outcome?, cache?, cache?, hfailed.state]
  refine ⟨(hkept 2).trans hnote, (hkept 1).trans hlook, ?_⟩
  have hothers : [seeAndCheckKey].filter (· ≠ seeAndCheckKey) = [] := by simp
  have hempty : (t.runPass (knowing ["app.Late"]) []).1.skipped = 0 := by
    have hnext := (evolves_runPass hreachable.sound (knowing ["app.Late"])
      [seeAndCheckKey, lookKey]).sound hreachable.sound
    have hsound : t.Sound := ht ▸ (evolves_runAll hnext later).sound hnext
    rw [(runPass_reordered hsound _ _).1, passInTurn]
    split <;> rfl
  rw [(hskips _ _ List.mem_cons_self).summary, hothers]
  exact congrArg (· + 1) hempty

end Session

end CallFold
