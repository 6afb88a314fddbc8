import CallFold.Proofs.Failures
import CallFold.Proofs.Persistence
import Mathlib

/-!
# Sessions that come to rest

Passes are run until one resolves nothing. Each call that is resolved was open before, and is not
open after, so the passes are no more than the open calls of their methods and one
(`length_runPasses_le`).

After a pass that resolved nothing each of its methods is idle (`Idle`): it was set aside, it is
complete, or all its open calls are declined with the outcomes that are kept. All that the task of
an idle method can do is to keep the state that is kept already (`Idle.effects`). So a pass over
idle methods changes nothing, in whatever order they move (`runPass_of_idle`).
-/

namespace CallFold

/-! ## Open calls -/

namespace Evaluator

variable {e : Evaluator} {cache last : OutcomeCache} {calls : List RecognizedCall} {d : Decisions}

namespace Takes

/-- An evaluation closes as many calls as it resolves. -/
theorem countP_open (h : e.Takes cache calls last d)
    (hnodup : (calls.map RecognizedCall.site).Nodup) :
    calls.countP (fun call => !last.contains call.site) + d.resolved.length =
      calls.countP fun call => !cache.contains call.site := by
  induction h with
  | done => rfl
  | @known cache last call calls d hknown hrest ih =>
    obtain ⟨hcall, hnodup⟩ := List.nodup_cons.mp hnodup
    rw [List.countP_cons, List.countP_cons, hrest.contains_of_notMem hcall, hknown, ← ih hnodup]
    rfl
  | @declined cache last call calls d hnew _ hrest ih =>
    obtain ⟨hcall, hnodup⟩ := List.nodup_cons.mp hnodup
    rw [List.countP_cons, List.countP_cons, hrest.contains_of_notMem hcall, hnew, ← ih hnodup]
    simp only [Bool.not_false, if_true]
    omega
  | @resolved cache last call calls d r hnew _ hrest ih =>
    obtain ⟨hcall, hnodup⟩ := List.nodup_cons.mp hnodup
    have hget : ∀ site, (cache.insert call.site r.outcome).2.contains site =
        if site = call.site then true else cache.contains site := by
      intro site
      show ((cache.insert call.site r.outcome).2.get? site).isSome = _
      rw [OutcomeCache.get?_insert hnew]
      split <;> rfl
    -- the other calls have other sites, so they are open as they were
    have hothers : calls.countP (fun other =>
          !(cache.insert call.site r.outcome).2.contains other.site) =
        calls.countP fun other => !cache.contains other.site := by
      refine List.countP_congr fun other hother => ?_
      have hne : other.site ≠ call.site := fun heq => hcall (heq ▸ List.mem_map_of_mem hother)
      rw [hget, if_neg hne]
    rw [List.countP_cons, List.countP_cons, hrest.contains_of_notMem hcall, hget, if_pos rfl, hnew,
      ← hothers, ← ih hnodup]
    simp only [Bool.not_true, Bool.not_false, Bool.false_eq_true, if_true, if_false,
      List.length_cons]
    omega

end Takes

end Evaluator

/-- The frame graph of a method, if the loader has the method and it is well formed. -/
def graphOf? (load : Loader) (key : MethodKey) : Option FrameGraph :=
  match load key.declaringType with
  | .error _ => none
  | .ok c => (c.method? key.name key.descriptor).bind fun body => (FrameGraph.build body).toOption

theorem graphOf?_of_loads {load : Loader} {key : MethodKey} {body : MethodBody}
    {graph : FrameGraph} (hloads : Loads load key body)
    (hbuild : FrameGraph.build body = .ok graph) : graphOf? load key = some graph := by
  obtain ⟨c, hc, hbody⟩ := hloads
  simp only [graphOf?, hc, hbody, Option.bind_some, hbuild]
  rfl

namespace Session

variable {s s' t u : Session} {metadata : Metadata} {key : MethodKey} {outcome : MethodPass}
  {methods keys : List MethodKey} {summary : PassSummary} {asked : Finset MethodKey}

/-- The reachable recognised calls of a method that are not resolved. -/
def openCalls (s : Session) (metadata : Metadata) (key : MethodKey) : List RecognizedCall :=
  match graphOf? s.load key with
  | none => []
  | some graph => (s.evaluator metadata graph).recognizedCalls.filter fun call =>
      s.outcome? key call.site = none

/-- The number of reachable recognised calls of some methods that are not resolved. -/
def openCount (s : Session) (metadata : Metadata) (asked : Finset MethodKey) : Nat :=
  ∑ key ∈ asked, (s.openCalls metadata key).length

theorem SameFor.openCalls (h : SameFor key s t) (hsettings : SameSettings s t)
    (metadata : Metadata) : t.openCalls metadata key = s.openCalls metadata key := by
  simp only [Session.openCalls, hsettings.load, hsettings.evaluator, h.outcome?]

theorem length_openCalls {graph : FrameGraph} {cache : OutcomeCache}
    (hcache : ∀ site, s.outcome? key site = cache.get? site)
    (hgraph : graphOf? s.load key = some graph) (metadata : Metadata) :
    (s.openCalls metadata key).length =
      (s.evaluator metadata graph).recognizedCalls.countP fun call =>
        !cache.contains call.site := by
  have hopen : ∀ call : RecognizedCall, decide (s.outcome? key call.site = none) =
      !cache.contains call.site := by
    intro call
    show decide (s.outcome? key call.site = none) = !(cache.get? call.site).isSome
    rw [hcache]
    cases cache.get? call.site <;> rfl
  rw [openCalls, hgraph, List.countP_eq_length_filter, funext hopen]

/-- The analysis of a method closes as many of its calls as it resolves. -/
theorem Analyzes.length_openCalls (h : Analyzes s metadata key outcome s') (hs : s.Sound) :
    (s'.openCalls metadata key).length + outcome.resolved =
      (s.openCalls metadata key).length := by
  cases h with
  | skipped _ => rfl
  | failed _ _ => rfl
  | @analyzed store graph cache last d _ _ hprepare htakes =>
    obtain ⟨body, hloads, hbuild⟩ := hs.prepare hprepare
    have hgraph := graphOf?_of_loads hloads hbuild
    have hcache := outcome?_of_prepare hprepare
    have hlast : ∀ site, ({ s with store }.commit key graph last
        ⟨(s.evaluator metadata graph).recognizedCalls.length, d.resolved,
          d.declined⟩).outcome? key site = last.get? site := by
      intro site
      rw [outcome?_commit, if_pos rfl]
    rw [Session.length_openCalls hcache hgraph, Session.length_openCalls hlast hgraph]
    exact htakes.countP_open (Evaluator.nodup_sites _)

/-- One analysis closes as many calls of some methods as it resolves. -/
theorem Analyzes.openCount (h : Analyzes s metadata key outcome s') (hs : s.Sound)
    (hkey : key ∈ asked) :
    s'.openCount metadata asked + outcome.resolved = s.openCount metadata asked := by
  have hothers : ∑ other ∈ asked.erase key, (s'.openCalls metadata other).length =
      ∑ other ∈ asked.erase key, (s.openCalls metadata other).length := by
    refine Finset.sum_congr rfl fun other hother => ?_
    rw [(h.sameFor (Finset.ne_of_mem_erase hother)).openCalls h.sameSettings]
  have hturn := h.length_openCalls hs
  rw [Session.openCount, Session.openCount, ← Finset.add_sum_erase _ _ hkey,
    ← Finset.add_sum_erase _ _ hkey, hothers]
  omega

theorem resolved_add (summary : PassSummary) (key : MethodKey) (outcome : MethodPass) :
    (summary.add key outcome).resolved = summary.resolved + outcome.resolved := by
  cases outcome <;> rfl

theorem analyzeAll_openCount (hs : s.Sound) (metadata : Metadata)
    (hkeys : ∀ key ∈ keys, key ∈ asked) (summary : PassSummary) :
    (analyzeAll metadata keys summary s).2.openCount metadata asked +
        (analyzeAll metadata keys summary s).1.resolved =
      s.openCount metadata asked + summary.resolved := by
  induction keys generalizing summary s with
  | nil => rfl
  | cons key keys ih =>
    have hanalyzes := analyzes_analyzeMethod s metadata key
    have hturn := hanalyzes.openCount hs (hkeys key List.mem_cons_self)
    have hrest := ih (hanalyzes.sound hs)
      (fun other hother => hkeys other (List.mem_cons_of_mem _ hother))
      (summary.add key (s.analyzeMethod metadata key).1)
    rw [resolved_add] at hrest
    rw [analyzeAll_cons]
    omega

/-- A pass closes as many calls of its methods as it resolves. -/
theorem runPass_openCount (hs : s.Sound) (metadata : Metadata) (methods : List MethodKey) :
    (s.runPass metadata methods).2.openCount metadata methods.toFinset +
        (s.runPass metadata methods).1.resolved =
      s.openCount metadata methods.toFinset := by
  obtain ⟨hsummary, hreordered⟩ := runPass_reordered hs metadata methods
  have hcount : (s.runPass metadata methods).2.openCount metadata methods.toFinset =
      (s.passInTurn metadata methods).2.openCount metadata methods.toFinset := by
    refine Finset.sum_congr rfl fun key _ => ?_
    rw [(hreordered.methods key).openCalls hreordered.settings]
  rw [hcount, hsummary, passInTurn]
  split
  · have hmem : ∀ key ∈ distinctKeys methods, key ∈ methods.toFinset := fun key hkey =>
      List.mem_toFinset.mpr (mem_distinctKeys_iff.mp hkey)
    have hbegun : Sound { s with passes := s.passes + 1 } := ⟨hs.store, hs.graph⟩
    exact analyzeAll_openCount hbegun metadata hmem _
  · rfl

/-! ## The number of passes -/

theorem length_runPasses_le_limit (metadata : Metadata) (methods : List MethodKey) (limit : Nat)
    (s : Session) : (runPasses metadata methods limit s).1.length ≤ limit := by
  induction limit generalizing s with
  | zero => exact Nat.le_refl 0
  | succ limit ih =>
    rcases hpass : s.runPass metadata methods with ⟨first, next⟩
    rcases Nat.eq_zero_or_pos first.resolved with hstable | hresolved
    · rw [runPasses_of_stable hpass hstable]
      exact Nat.succ_le_succ (Nat.zero_le limit)
    · rw [runPasses_of_resolved hpass hresolved]
      exact Nat.succ_le_succ (ih next)

/-- Every pass but the last resolves something. -/
theorem resolved_pos_of_mem_dropLast {limit : Nat}
    (h : summary ∈ (runPasses metadata methods limit s).1.dropLast) : 0 < summary.resolved := by
  induction limit generalizing s with
  | zero => exact absurd h List.not_mem_nil
  | succ limit ih =>
    rcases hpass : s.runPass metadata methods with ⟨first, next⟩
    rcases Nat.eq_zero_or_pos first.resolved with hstable | hresolved
    · rw [runPasses_of_stable hpass hstable] at h
      exact absurd h List.not_mem_nil
    · rw [runPasses_of_resolved hpass hresolved] at h
      by_cases hnil : (runPasses metadata methods limit next).1 = []
      · rw [hnil] at h
        exact absurd h List.not_mem_nil
      · rw [List.dropLast_cons_of_ne_nil hnil] at h
        rcases List.mem_cons.mp h with rfl | hrest
        · exact hresolved
        · exact ih hrest

/-- Fewer passes than the limit are run only if the last one resolves nothing. -/
theorem exists_stable_of_length_lt {limit : Nat}
    (h : (runPasses metadata methods limit s).1.length < limit) :
    ∃ summary, (runPasses metadata methods limit s).1.getLast? = some summary ∧
      summary.resolved = 0 := by
  induction limit generalizing s with
  | zero => exact absurd h (Nat.not_lt_zero _)
  | succ limit ih =>
    rcases hpass : s.runPass metadata methods with ⟨first, next⟩
    rcases Nat.eq_zero_or_pos first.resolved with hstable | hresolved
    · rw [runPasses_of_stable hpass hstable]
      exact ⟨first, rfl, hstable⟩
    · rw [runPasses_of_resolved hpass hresolved] at h ⊢
      obtain ⟨summary, hlast, hstable⟩ := ih (Nat.lt_of_succ_lt_succ h)
      refine ⟨summary, ?_, hstable⟩
      rw [List.getLast?_cons, hlast]
      rfl

/-- There are no more passes than open calls and one. -/
theorem length_runPasses_le (hs : s.Sound) (metadata : Metadata) (methods : List MethodKey)
    (limit : Nat) :
    (runPasses metadata methods limit s).1.length ≤
      1 + s.openCount metadata methods.toFinset := by
  induction limit generalizing s with
  | zero => exact Nat.zero_le _
  | succ limit ih =>
    have hsound := (evolves_runPass hs metadata methods).sound hs
    have hclosed := runPass_openCount hs metadata methods
    rcases hpass : s.runPass metadata methods with ⟨first, next⟩
    rw [hpass] at hsound hclosed
    dsimp only at hsound hclosed
    rcases Nat.eq_zero_or_pos first.resolved with hstable | hresolved
    · rw [runPasses_of_stable hpass hstable, List.length_singleton]
      omega
    · have hrest := ih hsound
      rw [runPasses_of_resolved hpass hresolved, List.length_cons]
      omega

/-! ## Idle methods -/

/-- Nothing that a session keeps or shows is other than it was, the number of its passes apart. -/
structure Unchanged (s t : Session) : Prop where
  settings : SameSettings s t
  states : ∀ key, t.states.get? key = s.states.get? key
  failures : t.failures = s.failures
  registrations : t.registrations = s.registrations
  resolutions : t.resolutions = s.resolutions
  tags : t.tags = s.tags
  store : t.store = s.store

theorem Unchanged.refl (s : Session) : Unchanged s s :=
  ⟨⟨rfl, rfl, rfl, rfl⟩, fun _ => rfl, rfl, rfl, rfl, rfl, rfl⟩

theorem Unchanged.trans (h : Unchanged s t) (h' : Unchanged t u) : Unchanged s u :=
  ⟨h.settings.trans h'.settings, fun key => (h'.states key).trans (h.states key),
    h'.failures.trans h.failures, h'.registrations.trans h.registrations,
    h'.resolutions.trans h.resolutions, h'.tags.trans h.tags, h'.store.trans h.store⟩

theorem Unchanged.begin (s : Session) (passes : Nat) : Unchanged s { s with passes } :=
  ⟨⟨rfl, rfl, rfl, rfl⟩, fun _ => rfl, rfl, rfl, rfl, rfl, rfl⟩

theorem Unchanged.sameFor (h : Unchanged s t) (key : MethodKey) : SameFor key s t :=
  ⟨h.states key, by rw [failure?, h.failures, failure?], by rw [h.resolutions], by rw [h.tags]⟩

/--
A method was set aside, or is complete, or its calls are such that an evaluation resolves none of
them and leaves the outcomes and the mark of completeness as they are.
-/
def Idle (s : Session) (metadata : Metadata) (key : MethodKey) : Prop :=
  s.failures.contains key = true ∨ s.isComplete key = true ∨
    ∃ state declined, s.states.get? key = some state ∧
      (s.evaluator metadata state.graph).Takes state.cache
        (s.evaluator metadata state.graph).recognizedCalls state.cache ⟨[], declined⟩ ∧
      state.complete = declined.isEmpty

theorem SameFor.idle (h : SameFor key s t) (hsettings : SameSettings s t)
    (hs : s.Idle metadata key) : t.Idle metadata key := by
  rw [Idle, h.contains_failures, h.isComplete, h.state]
  simp only [hsettings.evaluator]
  exact hs

/-- A method is idle after a turn in which none of its calls was resolved. -/
theorem Analyzes.idle (h : Analyzes s metadata key outcome s') (hnone : outcome.resolved = 0) :
    s'.Idle metadata key := by
  cases h with
  | skipped hsettled =>
    rcases hsettled with hfailed | hcomplete
    · exact Or.inl hfailed
    · exact Or.inr (Or.inl hcomplete)
  | @failed store e _ _ =>
    exact Or.inl (congrArg Option.isSome (Table.get?_insert_self s.failures key e))
  | @analyzed store graph cache last d _ _ _ htakes =>
    obtain ⟨resolved, declined⟩ := d
    obtain rfl : resolved = [] := List.eq_nil_of_length_eq_zero hnone
    obtain ⟨rfl, -⟩ := htakes.declines_of_resolved_eq_nil rfl
    exact Or.inr (Or.inr ⟨_, declined, Table.get?_insert_self s.states key _, htakes, rfl⟩)

/-- If no call is resolved, all that an evaluation does is to keep the state that it started with. -/
theorem evaluation_of_declined {state : MethodState} {declined : List Nat}
    (htakes : (s.evaluator metadata state.graph).Takes state.cache
      (s.evaluator metadata state.graph).recognizedCalls state.cache ⟨[], declined⟩)
    (hcomplete : state.complete = declined.isEmpty) :
    s.evaluation metadata state.graph state.cache =
      .act (.keep state) (.done (.analyzed 0)) := by
  have hevaluate := htakes.evaluate_eq
  unfold evaluator at hevaluate
  simp only [evaluation, hevaluate]
  show Task.act (.keep ⟨state.graph, state.cache, declined.isEmpty⟩) _ = _
  rw [← hcomplete]
  rfl

/-- The task of an idle method resolves nothing and at most keeps the state that is kept already. -/
theorem Idle.effects (h : s.Idle metadata key) :
    ((s.analysis metadata).outcome (s.view key) = .skipped ∨
        (s.analysis metadata).outcome (s.view key) = .analyzed 0) ∧
      ∀ effect ∈ (s.analysis metadata).effects (s.view key),
        ∃ state, effect = .keep state ∧ s.states.get? key = some state := by
  have hview : s.view key =
      ⟨s.failures.get? key, s.states.get? key, (s.store.method s.load key).2⟩ := rfl
  rw [Idle, Table.contains, isComplete] at h
  rw [hview]
  cases hfailure : s.failures.get? key with
  | some e => exact ⟨Or.inl rfl, fun effect heffect => absurd heffect List.not_mem_nil⟩
  | none =>
    rw [hfailure] at h
    rcases h.resolve_left Bool.false_ne_true with hdone | ⟨state, declined, hstate, htakes, hsame⟩
    · rw [Option.any_eq_true] at hdone
      obtain ⟨state, hstate, hcomplete⟩ := hdone
      simp only [hstate, analysis, Task.outcome, Task.effects, hcomplete, if_true]
      exact ⟨Or.inl trivial, fun effect heffect => absurd heffect List.not_mem_nil⟩
    · simp only [hstate, analysis, Task.outcome, Task.effects, evaluation_of_declined htakes hsame]
      split
      · exact ⟨Or.inl rfl, fun effect heffect => absurd heffect List.not_mem_nil⟩
      · exact ⟨Or.inr rfl, fun effect heffect => ⟨state, List.mem_singleton.mp heffect, rfl⟩⟩

/-- To keep what is kept already changes nothing. -/
theorem unchanged_performAll {trace : List (MethodKey × Effect)}
    (h : ∀ e ∈ trace, ∃ state, e.2 = .keep state ∧ s.states.get? e.1 = some state) :
    Unchanged s (s.performAll trace) := by
  induction trace generalizing s with
  | nil => exact .refl s
  | cons e trace ih =>
    obtain ⟨state, heffect, hstate⟩ := h e List.mem_cons_self
    have hstates : ∀ key, (s.states.insert e.1 state).get? key = s.states.get? key := by
      intro key
      rw [Table.get?_insert]
      split
      · next heq => rw [heq, hstate]
      · rfl
    have hstep : Unchanged s (s.perform e.1 (.keep state)) :=
      ⟨⟨rfl, rfl, rfl, rfl⟩, hstates, rfl, rfl, rfl, rfl, rfl⟩
    rw [performAll_cons, heffect]
    refine hstep.trans (ih fun e' he' => ?_)
    obtain ⟨state', heffect', hstate'⟩ := h e' (List.mem_cons_of_mem _ he')
    exact ⟨state', heffect', (hstates e'.1).trans hstate'⟩

theorem foldl_add_of_idle {results : List (MethodKey × MethodPass)}
    (h : ∀ r ∈ results, r.2 = .skipped ∨ r.2 = .analyzed 0) (summary : PassSummary) :
    (results.foldl (fun summary r => summary.add r.1 r.2) summary).resolved = summary.resolved ∧
      (results.foldl (fun summary r => summary.add r.1 r.2) summary).failed = summary.failed := by
  induction results generalizing summary with
  | nil => exact ⟨rfl, rfl⟩
  | cons r results ih =>
    obtain ⟨hresolved, hfailed⟩ := ih (fun r' hr' => h r' (List.mem_cons_of_mem _ hr'))
      (summary.add r.1 r.2)
    rw [List.foldl_cons, hresolved, hfailed]
    rcases h r List.mem_cons_self with houtcome | houtcome <;> rw [houtcome] <;> exact ⟨rfl, rfl⟩

/-- A pass over idle methods resolves nothing, reports no failure and changes nothing. -/
theorem runPass_of_idle (hs : s.Sound) (h : ∀ key ∈ methods, s.Idle metadata key) :
    (s.runPass metadata methods).1.resolved = 0 ∧ (s.runPass metadata methods).1.failed = [] ∧
      Unchanged s (s.runPass metadata methods).2 := by
  have hbegun := Unchanged.begin s (s.passes + 1)
  by_cases henabled : s.config.enabled = true
  · obtain ⟨trace, results, hpass, hsummary⟩ := exists_executes henabled metadata methods
    have hkeys := nodup_key_workers s metadata methods
    -- whoever moves first, each worker does what its task does in the session at the beginning
    have hidle : ∀ w ∈ s.workers metadata (distinctKeys methods),
        w.task = s.analysis metadata ∧ s.Idle metadata w.key := by
      intro w hw
      obtain ⟨key, hkey, rfl⟩ := List.mem_map.mp hw
      exact ⟨rfl, h key (mem_distinctKeys_iff.mp hkey)⟩
    have hresults : ∀ r ∈ results, r.2 = .skipped ∨ r.2 = .analyzed 0 := by
      intro r hr
      rw [hpass.results_eq hs.store hkeys] at hr
      obtain ⟨w, hw, rfl⟩ := List.mem_map.mp hr
      obtain ⟨htask, hw⟩ := hidle w hw
      rw [htask]
      exact hw.effects.1
    have htrace : ∀ e ∈ trace, ∃ state, e.2 = .keep state ∧ s.states.get? e.1 = some state := by
      intro e he
      obtain ⟨w, hw, hkey⟩ := List.mem_map.mp (hpass.mem_keys e he)
      have hown : e.2 ∈ own w.key trace := mem_own_iff.mpr (hkey ▸ he)
      rw [hpass.own_trace hs.store hkeys hw] at hown
      obtain ⟨htask, hw⟩ := hidle w hw
      rw [htask] at hown
      rw [← hkey]
      exact hw.effects.2 e.2 hown
    rw [hsummary, hpass.eq_performAll]
    obtain ⟨hresolved, hfailed⟩ := foldl_add_of_idle hresults ⟨s.passes + 1, 0, 0, 0, []⟩
    exact ⟨hresolved, hfailed, hbegun.trans (unchanged_performAll htrace)⟩
  · rw [runPass, if_neg henabled]
    exact ⟨rfl, rfl, hbegun⟩

/-- Any passes over idle methods resolve nothing, report no failure and change nothing. -/
theorem runAll_of_idle {further : List (List MethodKey)} (hs : s.Sound)
    (h : ∀ methods ∈ further, ∀ key ∈ methods, s.Idle metadata key) :
    (∀ later ∈ (runAll (further.map (metadata, ·)) s).1, later.resolved = 0 ∧ later.failed = []) ∧
      Unchanged s (runAll (further.map (metadata, ·)) s).2 := by
  induction further generalizing s with
  | nil => exact ⟨fun later hlater => absurd hlater List.not_mem_nil, .refl s⟩
  | cons methods further ih =>
    obtain ⟨hresolved, hfailed, hunchanged⟩ := runPass_of_idle hs (h methods List.mem_cons_self)
    have hrest : ∀ methods' ∈ further, ∀ key ∈ methods',
        (s.runPass metadata methods).2.Idle metadata key := fun methods' hmethods' key hkey =>
      (hunchanged.sameFor key).idle hunchanged.settings
        (h methods' (List.mem_cons_of_mem _ hmethods') key hkey)
    obtain ⟨hlater, hlast⟩ := ih ((evolves_runPass hs metadata methods).sound hs) hrest
    rw [List.map_cons, runAll_cons]
    refine ⟨fun later hmem => ?_, hunchanged.trans hlast⟩
    rcases List.mem_cons.mp hmem with rfl | hmem
    · exact ⟨hresolved, hfailed⟩
    · exact hlater later hmem

/-- After a pass that resolved nothing its methods are idle. -/
theorem idle_of_runPass (hs : s.Sound) (henabled : s.config.enabled = true)
    (hpass : s.runPass metadata methods = (summary, t)) (hstable : summary.resolved = 0)
    (hkey : key ∈ methods) : t.Idle metadata key := by
  obtain ⟨mid, outcome, mid', hmid, hturn, hsame, hresolved⟩ := exists_turn hs henabled hpass hkey
  have hnone : outcome.resolved = 0 := by
    cases outcome with
    | analyzed n => exact Nat.le_zero.mp (hstable ▸ hresolved n rfl)
    | skipped => rfl
    | failed => rfl
  have hrun := sameSettings_runPass s metadata methods
  rw [hpass] at hrun
  have hsettings : SameSettings mid' t :=
    (hmid.sameSettings.trans hturn.sameSettings).symm.trans hrun
  exact hsame.idle hsettings (hturn.idle hnone)

/--
In a session that some requests led to, passes are run until one resolves nothing. They are no more
than are allowed, and no more than the open calls of the methods and one. Each but the last resolves
something, and the last does not if there are fewer than are allowed. If it resolves nothing, then
the session has come to rest: any further passes over some of the methods resolve nothing, report no
failure and change nothing.
-/
theorem runUntilStable_rests {summaries : List PassSummary} (hs : s.Reachable)
    (henabled : s.config.enabled = true)
    (hrun : s.runUntilStable metadata methods = (summaries, t)) :
    summaries.length ≤ s.config.maxPasses ∧
      (∀ summary ∈ summaries.dropLast, 0 < summary.resolved) ∧
      (summaries.length < s.config.maxPasses →
        ∃ summary, summaries.getLast? = some summary ∧ summary.resolved = 0) ∧
      summaries.length ≤ 1 + s.openCount metadata methods.toFinset ∧
      ∀ summary, summaries.getLast? = some summary → summary.resolved = 0 →
        ∀ further : List (List MethodKey), (∀ methods' ∈ further, methods' ⊆ methods) →
          (∀ later ∈ (runAll (further.map (metadata, ·)) t).1,
            later.resolved = 0 ∧ later.failed = []) ∧
          Unchanged t (runAll (further.map (metadata, ·)) t).2 := by
  have hsummaries : (runPasses metadata methods s.config.maxPasses s).1 = summaries :=
    congrArg Prod.fst hrun
  refine ⟨?_, fun summary hmem => ?_, fun hlt => ?_, ?_,
    fun summary hlast hstable further hfurther => ?_⟩
  · rw [← hsummaries]
    exact length_runPasses_le_limit metadata methods s.config.maxPasses s
  · rw [← hsummaries] at hmem
    exact resolved_pos_of_mem_dropLast hmem
  · rw [← hsummaries] at hlt ⊢
    exact exists_stable_of_length_lt hlt
  · rw [← hsummaries]
    exact length_runPasses_le hs.sound metadata methods s.config.maxPasses
  · obtain ⟨u, hu, hpass⟩ := exists_last_pass hs.sound hrun hlast
    have henabled' : u.config.enabled = true := by
      rw [hu.sameSettings.config]
      exact henabled
    have hsound := hu.sound hs.sound
    have hrests : t.Sound := by
      have hnext := (evolves_runPass hsound metadata methods).sound hsound
      rwa [hpass] at hnext
    exact runAll_of_idle hrests fun methods' hmethods' key hkey =>
      idle_of_runPass hsound henabled' hpass hstable (hfurther methods' hmethods' hkey)

/-! ### A session at rest with open calls -/

/-- A session for a method that looks at a class, makes a note and checks the class. -/
def noteSession : Session :=
  fresh .sequential (.ofClasses [⟨"app/Boot", [seeAndCheck]⟩]) hooks [] fun _ => []

/--
Three calls are open. While the class is not known only the note is resolved. The second pass
resolves nothing, and no later one does anything with the two calls that stay open.
-/
theorem runUntilStable_rests_noteSession :
    noteSession.Reachable ∧ noteSession.config.enabled = true ∧
      noteSession.openCount (knowing []) [seeAndCheckKey].toFinset = 3 ∧
      ∃ summaries t, noteSession.runUntilStable (knowing []) [seeAndCheckKey] = (summaries, t) ∧
        summaries.map PassSummary.resolved = [1, 0] ∧ t.outcome? seeAndCheckKey 1 = none ∧
        t.isComplete seeAndCheckKey = false ∧
        ∀ n, Unchanged t (runAll (List.replicate n (knowing [], [seeAndCheckKey])) t).2 := by
  have hreachable : noteSession.Reachable := ⟨_, _, _, _, _, [], rfl⟩
  have hcount : noteSession.openCount (knowing []) [seeAndCheckKey].toFinset = 3 := by
    rw [openCount, List.toFinset_cons, List.toFinset_nil, insert_empty_eq, Finset.sum_singleton,
      noteSession, fresh, withCatalog_start]
    cbv
  have hresolved : (noteSession.runUntilStable (knowing []) [seeAndCheckKey]).1.map
      PassSummary.resolved = [1, 0] := by
    rw [noteSession, fresh, withCatalog_start]
    cbv
  have hopen : (noteSession.runUntilStable (knowing []) [seeAndCheckKey]).2.outcome?
      seeAndCheckKey 1 = none := by
    rw [noteSession, fresh, withCatalog_start]
    cbv
  have hcomplete : (noteSession.runUntilStable (knowing []) [seeAndCheckKey]).2.isComplete
      seeAndCheckKey = false := by
    rw [noteSession, fresh, withCatalog_start]
    cbv
  rcases hrun : noteSession.runUntilStable (knowing []) [seeAndCheckKey] with ⟨summaries, t⟩
  rw [hrun] at hresolved hopen hcomplete
  refine ⟨hreachable, rfl, hcount, summaries, t, rfl, hresolved, hopen, hcomplete, fun n => ?_⟩
  obtain ⟨-, -, -, -, hrests⟩ := runUntilStable_rests hreachable rfl hrun
  obtain ⟨first, last, rfl⟩ : ∃ first last, summaries = [first, last] :=
    List.length_eq_two.mp (by simpa using congrArg List.length hresolved)
  have hstable : last.resolved = 0 := by
    simp only [List.map_cons, List.cons.injEq] at hresolved
    exact hresolved.2.1
  have hfurther := hrests last rfl hstable (List.replicate n [seeAndCheckKey])
    fun methods' hmethods' => by rw [List.eq_of_mem_replicate hmethods']; exact List.Subset.refl _
  rw [List.map_replicate] at hfurther
  exact hfurther.2

end Session

end CallFold
