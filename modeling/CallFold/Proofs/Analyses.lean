import CallFold.Proofs.Evaluation
import CallFold.Session

/-!
# The analysis of a method

The task of a method, taken in one go, comes to the following (`Session.analyzeMethod_eq`). The
method is skipped if it was set aside or is complete. Otherwise its graph and its outcomes are
fetched (`Session.prepare`) and its calls are evaluated (`Session.findings`), and either the method
is set aside or what was found is kept (`Session.conclude`). `Session.Analyzes` says the same in a
form in which the laws of sessions are proved.

From this follows what an analysis leaves alone: the settings, and whatever belongs to another
method.
-/

namespace CallFold

/-! ## Loading -/

/-- The loader has a body for a method. -/
def Loads (load : Loader) (key : MethodKey) (body : MethodBody) : Prop :=
  ∃ c, load key.declaringType = .ok c ∧ c.method? key.name key.descriptor = some body

namespace CodeStore

/-- A store to which at most the class of one type is added, if the loader has it. -/
inductive Grows (load : Loader) (type : String) (s : CodeStore) : CodeStore → Prop where
  | same : Grows load type s s
  | loaded {c : ClassCode} (hnew : s.loaded.get? type = none) (hload : load type = .ok c) :
      Grows load type s ⟨s.loaded.insert type c⟩

/-- The store holds what the loader has. -/
def Faithful (s : CodeStore) (load : Loader) : Prop :=
  ∀ type c, s.loaded.get? type = some c → load type = .ok c

variable {s s' : CodeStore} {load : Loader} {key : MethodKey} {type : String}

theorem Faithful.grows (h : s.Faithful load) (hgrows : Grows load type s s') :
    s'.Faithful load := by
  cases hgrows with
  | same => exact h
  | @loaded c _ hload =>
    intro type' c' hget
    rw [Table.get?_insert] at hget
    split at hget
    · next heq => rw [heq, hload, Option.some.inj hget]
    · exact h type' c' hget

theorem grows_classCode (s : CodeStore) (load : Loader) (type : String) :
    Grows load type s (s.classCode load type).1 := by
  unfold classCode
  split
  · exact .same
  · next hnew =>
    split
    · next c hload => exact .loaded hnew hload
    · exact .same

theorem Faithful.classCode (h : s.Faithful load) {c : ClassCode}
    (hc : (s.classCode load type).2 = .ok c) : load type = .ok c := by
  unfold CodeStore.classCode at hc
  split at hc
  · next c' hget => rw [h type c' hget, Except.ok.inj hc]
  · split at hc
    · next c' hload => rw [hload, Except.ok.inj hc]
    · simp at hc

theorem method_fst (s : CodeStore) (load : Loader) (key : MethodKey) :
    (s.method load key).1 = (s.classCode load key.declaringType).1 := by
  unfold method
  split
  · next h => rw [h]
  · next h =>
    rw [h]
    split <;> rfl

theorem Faithful.method (h : s.Faithful load) {body : MethodBody}
    (hbody : (s.method load key).2 = .ok body) : Loads load key body := by
  unfold CodeStore.method at hbody
  split at hbody
  · simp at hbody
  · next s' c hc =>
    refine ⟨c, h.classCode (congrArg Prod.snd hc), ?_⟩
    split at hbody
    · next body' hbody' => rw [hbody', Except.ok.inj hbody]
    · simp at hbody

theorem Faithful.classCode_snd (h : s.Faithful load) (type : String) :
    (s.classCode load type).2 = load type := by
  unfold CodeStore.classCode
  split
  · next c hget => exact (h type c hget).symm
  · split
    · next hload => exact hload.symm
    · next hload => exact hload.symm

/-- The body of a method does not depend on what is loaded already. -/
theorem Faithful.method_snd (h : s.Faithful load) (h' : s'.Faithful load) (key : MethodKey) :
    (s.method load key).2 = (s'.method load key).2 := by
  have hclass : (s.classCode load key.declaringType).2 =
      (s'.classCode load key.declaringType).2 := by
    rw [h.classCode_snd, h'.classCode_snd]
  unfold CodeStore.method
  generalize s.classCode load key.declaringType = first at hclass
  generalize s'.classCode load key.declaringType = second at hclass
  obtain ⟨_, result⟩ := first
  obtain ⟨_, result'⟩ := second
  obtain rfl : result = result' := hclass
  cases result with
  | error e => rfl
  | ok c =>
    dsimp only
    cases c.method? key.name key.descriptor <;> rfl

end CodeStore

/-- The number of calls that a pass resolved in a method. -/
def MethodPass.resolved : MethodPass → Nat
  | analyzed n => n
  | _ => 0

namespace Session

variable {s s' t : Session} {metadata : Metadata} {key other : MethodKey} {outcome : MethodPass}

/-! ## One method -/

/-- The evaluator of a method with the settings of a session. -/
def evaluator (s : Session) (metadata : Metadata) (graph : FrameGraph) : Evaluator where
  graph := graph
  metadata := metadata
  catalog := s.catalog
  safeCalls := s.safeCalls
  maxTraceDepth := s.config.maxTraceDepth

/-- The frame graph and the outcomes with which the evaluation of a method starts. -/
def prepare (s : Session) (key : MethodKey) :
    CodeStore × Except Error (FrameGraph × OutcomeCache) :=
  match s.states.get? key with
  | some state => (s.store, .ok (state.graph, state.cache))
  | none =>
    match s.store.method s.load key with
    | (store, .error e) => (store, .error e)
    | (store, .ok body) =>
      match FrameGraph.build body with
      | .error e => (store, .error (.frame e))
      | .ok graph => (store, .ok (graph, .empty))

/-- Keeps what the evaluation of a method found. -/
def commit (s : Session) (key : MethodKey) (graph : FrameGraph) (cache : OutcomeCache)
    (report : MethodReport) : Session :=
  let tagged := report.resolved.filter fun call => call.taggable && s.config.tagCallSites
  { s with
    registrations := s.registrations ++ report.resolved.map ResolvedCall.registration
    resolutions := s.resolutions ++ report.resolved.map (recordOf key)
    tags := s.tags ++ tagged.map (tagOf key)
    states := s.states.insert key { graph, cache, complete := report.isComplete } }

/-- Sets a method aside. -/
def setAside (s : Session) (key : MethodKey) (e : Error) : Session :=
  { s with failures := s.failures.insert key e }

/-- What the evaluation of a method finds: its frame graph, its outcomes and the report. -/
def findings (s : Session) (metadata : Metadata) (key : MethodKey) :
    Except Error (FrameGraph × OutcomeCache × MethodReport) :=
  match (s.prepare key).2 with
  | .error e => .error e
  | .ok (graph, cache) =>
    match (s.evaluator metadata graph).evaluate cache with
    | (_, .error e) => .error e
    | (staged, .ok report) => .ok (graph, staged, report)

/-- What a session makes of the findings: it sets the method aside or keeps what was found. -/
def conclude (s : Session) (key : MethodKey) :
    Except Error (FrameGraph × OutcomeCache × MethodReport) → MethodPass × Session
  | .error e => (.failed, s.setAside key e)
  | .ok (graph, cache, report) =>
    (.analyzed report.resolved.length, s.commit key graph cache report)

/-- Evaluates a method that is neither complete nor set aside. -/
def evaluateMethod (s : Session) (metadata : Metadata) (key : MethodKey) : MethodPass × Session :=
  { s with store := (s.prepare key).1 }.conclude key (s.findings metadata key)

/-! ### The task in one go -/

theorem settle_actAll (effects : List Effect) (next : Task) (key : MethodKey) (s : Session) :
    (Task.actAll effects next).settle key s =
      next.settle key (effects.foldl (fun s effect => s.perform key effect) s) := by
  induction effects generalizing s with
  | nil => rfl
  | cons effect effects ih => exact ih (s.perform key effect)

/-- What is written about the resolved calls, one after another, is what is added to the logs. -/
theorem foldl_perform_effectsOf (calls : List ResolvedCall) (tagCallSites : Bool) (key : MethodKey)
    (s : Session) :
    (calls.flatMap (effectsOf tagCallSites)).foldl (fun s effect => s.perform key effect) s =
      { s with
        registrations := s.registrations ++ calls.map ResolvedCall.registration
        resolutions := s.resolutions ++ calls.map (recordOf key)
        tags := s.tags ++
          (calls.filter fun call => call.taggable && tagCallSites).map (tagOf key) } := by
  induction calls generalizing s with
  | nil => simp
  | cons call calls ih =>
    rw [List.flatMap_cons, List.foldl_append, ih]
    cases htag : call.taggable && tagCallSites <;>
      simp [effectsOf, perform, htag, List.append_assoc]

theorem settle_evaluation (s : Session) (metadata : Metadata) (graph : FrameGraph)
    (cache : OutcomeCache) (store : CodeStore) (key : MethodKey) :
    (s.evaluation metadata graph cache).settle key { s with store } =
      { s with store }.conclude key
        (match (s.evaluator metadata graph).evaluate cache with
        | (_, .error e) => .error e
        | (staged, .ok report) => .ok (graph, staged, report)) := by
  unfold evaluation
  show Task.settle key (match (s.evaluator metadata graph).evaluate cache with
    | (_, .error e) => failing e
    | (staged, .ok report) => _) _ = _
  generalize (s.evaluator metadata graph).evaluate cache = evaluated
  obtain ⟨staged, result⟩ := evaluated
  cases result with
  | error e => rfl
  | ok report =>
    dsimp only
    rw [settle_actAll, foldl_perform_effectsOf]
    rfl

theorem evaluateMethod_of_state {state : MethodState} (h : s.states.get? key = some state)
    (metadata : Metadata) :
    s.evaluateMethod metadata key =
      (s.evaluation metadata state.graph state.cache).settle key s := by
  have hprepare : s.prepare key = (s.store, .ok (state.graph, state.cache)) := by
    rw [prepare, h]
  have hsettle := settle_evaluation s metadata state.graph state.cache s.store key
  rw [evaluateMethod, findings, hprepare]
  exact hsettle.symm

theorem evaluateMethod_of_new (h : s.states.get? key = none) (metadata : Metadata) :
    s.evaluateMethod metadata key =
      (match (s.store.method s.load key).2 with
        | .error e => failing e
        | .ok body =>
          match FrameGraph.build body with
          | .error e => failing (.frame e)
          | .ok graph => s.evaluation metadata graph .empty).settle key
        { s with store := (s.store.method s.load key).1 } := by
  rw [evaluateMethod, findings, prepare, h]
  generalize s.store.method s.load key = loaded
  obtain ⟨store, result⟩ := loaded
  cases result with
  | error e => rfl
  | ok body =>
    dsimp only
    cases FrameGraph.build body with
    | error e => rfl
    | ok graph => exact (settle_evaluation s metadata graph .empty store key).symm

/-- A method is skipped if it was set aside or is complete, or else its calls are evaluated. -/
theorem analyzeMethod_eq (s : Session) (metadata : Metadata) (key : MethodKey) :
    s.analyzeMethod metadata key =
      if s.failures.contains key || s.isComplete key then (.skipped, s)
      else s.evaluateMethod metadata key := by
  unfold analyzeMethod analysis Table.contains isComplete
  simp only [Task.settle]
  cases s.failures.get? key with
  | some e => simp [Task.settle]
  | none =>
    simp only [Task.settle, Option.isSome_none, Bool.false_or]
    cases hstate : s.states.get? key with
    | some state =>
      cases hcomplete : state.complete with
      | true => simp [Task.settle, hcomplete]
      | false => simp [hcomplete, evaluateMethod_of_state hstate]
    | none =>
      simp only [Task.settle, Option.any_none, Bool.false_eq_true, if_false]
      exact (evaluateMethod_of_new hstate metadata).symm

/-! ### What can come of it -/

theorem grows_prepare (s : Session) (key : MethodKey) :
    s.store.Grows s.load key.declaringType (s.prepare key).1 := by
  have hmethod : s.store.Grows s.load key.declaringType (s.store.method s.load key).1 := by
    rw [CodeStore.method_fst]
    exact CodeStore.grows_classCode s.store s.load key.declaringType
  unfold prepare
  split
  · exact .same
  · split
    · next h => rwa [h] at hmethod
    · next h =>
      rw [h] at hmethod
      split
      · exact hmethod
      · exact hmethod

/-- An evaluation goes on with what is kept of the method, or starts with its frame graph. -/
theorem prepare_eq_ok {store : CodeStore} {graph : FrameGraph} {cache : OutcomeCache}
    (h : s.prepare key = (store, .ok (graph, cache))) :
    (∃ state, s.states.get? key = some state ∧ state.graph = graph ∧ state.cache = cache) ∨
      s.states.get? key = none ∧ cache = .empty ∧
        ∃ body, (s.store.method s.load key).2 = .ok body ∧ FrameGraph.build body = .ok graph := by
  unfold prepare at h
  split at h
  · next state hstate =>
    obtain ⟨-, hrest⟩ := Prod.mk.inj h
    obtain ⟨hgraph, hcache⟩ := Prod.mk.inj (Except.ok.inj hrest)
    exact Or.inl ⟨state, hstate, hgraph, hcache⟩
  · next hnone =>
    refine Or.inr ⟨hnone, ?_⟩
    split at h
    · simp at h
    · next body hbody =>
      split at h
      · simp at h
      · next graph' hbuild =>
        obtain ⟨-, hrest⟩ := Prod.mk.inj h
        obtain ⟨rfl, rfl⟩ := Prod.mk.inj (Except.ok.inj hrest)
        exact ⟨rfl, body, congrArg Prod.snd hbody, hbuild⟩

/-- What the analysis of a method can do to a session. -/
inductive Analyzes (s : Session) (metadata : Metadata) (key : MethodKey) :
    MethodPass → Session → Prop where
  | skipped (hsettled : s.failures.contains key = true ∨ s.isComplete key = true) :
      Analyzes s metadata key .skipped s
  | failed {store : CodeStore} {e : Error} (hopen : s.failures.contains key = false)
      (hstore : s.store.Grows s.load key.declaringType store) :
      Analyzes s metadata key .failed ({ s with store }.setAside key e)
  | analyzed {store : CodeStore} {graph : FrameGraph} {cache last : OutcomeCache}
      {d : Evaluator.Decisions} (hopen : s.failures.contains key = false)
      (hstore : s.store.Grows s.load key.declaringType store)
      (hprepare : s.prepare key = (store, .ok (graph, cache)))
      (htakes : (s.evaluator metadata graph).Takes cache
        (s.evaluator metadata graph).recognizedCalls last d) :
      Analyzes s metadata key (.analyzed d.resolved.length)
        ({ s with store }.commit key graph last
          ⟨(s.evaluator metadata graph).recognizedCalls.length, d.resolved, d.declined⟩)

theorem analyzes_evaluateMethod (hopen : s.failures.contains key = false) (metadata : Metadata) :
    Analyzes s metadata key (s.evaluateMethod metadata key).1
      (s.evaluateMethod metadata key).2 := by
  have hgrows := grows_prepare s key
  unfold evaluateMethod findings
  rcases hprepare : s.prepare key with ⟨store, e | ⟨graph, cache⟩⟩
  · rw [hprepare] at hgrows
    exact .failed hopen hgrows
  · rw [hprepare] at hgrows
    dsimp only
    rcases hevaluate : (s.evaluator metadata graph).evaluate cache with ⟨staged, e | report⟩
    · exact .failed hopen hgrows
    · obtain ⟨d, htakes, rfl⟩ := Evaluator.takes_of_evaluate hevaluate
      exact .analyzed hopen hgrows hprepare htakes

theorem analyzes_analyzeMethod (s : Session) (metadata : Metadata) (key : MethodKey) :
    Analyzes s metadata key (s.analyzeMethod metadata key).1 (s.analyzeMethod metadata key).2 := by
  rw [analyzeMethod_eq]
  split
  · next hsettled => exact .skipped (Bool.or_eq_true _ _ ▸ hsettled)
  · next hnot =>
    rw [Bool.not_eq_true, Bool.or_eq_false_iff] at hnot
    exact analyzes_evaluateMethod hnot.1 metadata

/-! ## What an analysis leaves alone -/

/-- Sessions with the same settings. The schedule is no setting. -/
structure SameSettings (s t : Session) : Prop where
  config : t.config = s.config
  load : t.load = s.load
  catalog : t.catalog = s.catalog
  safeCalls : t.safeCalls = s.safeCalls

theorem SameSettings.evaluator (h : SameSettings s t) (metadata : Metadata) (graph : FrameGraph) :
    t.evaluator metadata graph = s.evaluator metadata graph := by
  simp only [Session.evaluator, h.config, h.catalog, h.safeCalls]

theorem SameSettings.symm (h : SameSettings s t) : SameSettings t s :=
  ⟨h.config.symm, h.load.symm, h.catalog.symm, h.safeCalls.symm⟩

theorem SameSettings.trans {u : Session} (h : SameSettings s t) (h' : SameSettings t u) :
    SameSettings s u :=
  ⟨h'.config.trans h.config, h'.load.trans h.load, h'.catalog.trans h.catalog,
    h'.safeCalls.trans h.safeCalls⟩

theorem Analyzes.sameSettings (h : Analyzes s metadata key outcome s') : SameSettings s s' := by
  cases h <;> exact ⟨rfl, rfl, rfl, rfl⟩

/-- Sessions in which everything that belongs to a method is the same. -/
structure SameFor (key : MethodKey) (s t : Session) : Prop where
  state : t.states.get? key = s.states.get? key
  failure : t.failure? key = s.failure? key
  records : t.resolutions.filter (fun r => r.method = key) =
    s.resolutions.filter fun r => r.method = key
  tags : t.tags.filter (fun tag => tag.method = key) = s.tags.filter fun tag => tag.method = key

theorem SameFor.refl (key : MethodKey) (s : Session) : SameFor key s s := ⟨rfl, rfl, rfl, rfl⟩

theorem SameFor.symm (h : SameFor key s t) : SameFor key t s :=
  ⟨h.state.symm, h.failure.symm, h.records.symm, h.tags.symm⟩

theorem SameFor.trans {u : Session} (h : SameFor key s t) (h' : SameFor key t u) :
    SameFor key s u :=
  ⟨h'.state.trans h.state, h'.failure.trans h.failure, h'.records.trans h.records,
    h'.tags.trans h.tags⟩

theorem SameFor.contains_failures (h : SameFor key s t) :
    t.failures.contains key = s.failures.contains key :=
  congrArg Option.isSome h.failure

theorem SameFor.outcome? (h : SameFor key s t) (site : Nat) :
    t.outcome? key site = s.outcome? key site := by
  rw [Session.outcome?, Session.outcome?, cache?, cache?, h.state]

/-- The analysis of a method leaves alone what belongs to another one. -/
theorem Analyzes.sameFor (h : Analyzes s metadata other outcome s') (hne : key ≠ other) :
    SameFor key s s' := by
  cases h with
  | skipped _ => exact .refl key s
  | failed _ _ => exact ⟨rfl, Table.get?_insert_of_ne _ _ hne, rfl, rfl⟩
  | analyzed _ _ _ _ =>
    refine ⟨Table.get?_insert_of_ne _ _ hne, rfl, ?_, ?_⟩
    · simp [commit, List.filter_append, List.filter_map, Function.comp_def, recordOf, hne.symm]
    · simp [commit, List.filter_append, List.filter_map, Function.comp_def, tagOf, hne.symm]

/-! ## What a session is sure of -/

/-- The store holds what the loader has, and the graphs that are kept are those of its methods. -/
structure Sound (s : Session) : Prop where
  store : s.store.Faithful s.load
  graph : ∀ key state, s.states.get? key = some state →
    ∃ body, Loads s.load key body ∧ FrameGraph.build body = .ok state.graph

/-- A new session that recognises the calls of a catalog and takes some more calls for safe. -/
def fresh (config : Config) (load : Loader) (catalog : Catalog) (signatures : List CallSignature)
    (schedule : Schedule) : Session :=
  ((start config load schedule).withCatalog catalog).withSafeCalls signatures

theorem sound_fresh (config : Config) (load : Loader) (catalog : Catalog)
    (signatures : List CallSignature) (schedule : Schedule) :
    (fresh config load catalog signatures schedule).Sound where
  store type c h := by cases h
  graph key state h := by cases h

/-- The graph with which an evaluation starts is that of the method. -/
theorem Sound.prepare (hs : s.Sound) {store : CodeStore} {graph : FrameGraph}
    {cache : OutcomeCache} (h : s.prepare key = (store, .ok (graph, cache))) :
    ∃ body, Loads s.load key body ∧ FrameGraph.build body = .ok graph := by
  rcases prepare_eq_ok h with ⟨state, hstate, rfl, -⟩ | ⟨-, -, body, hbody, hbuild⟩
  · exact hs.graph key state hstate
  · exact ⟨body, hs.store.method hbody, hbuild⟩

theorem Analyzes.sound (h : Analyzes s metadata key outcome s') (hs : s.Sound) : s'.Sound := by
  cases h with
  | skipped _ => exact hs
  | failed _ hstore => exact ⟨hs.store.grows hstore, hs.graph⟩
  | analyzed _ hstore hprepare _ =>
    refine ⟨hs.store.grows hstore, fun key' state hstate => ?_⟩
    simp only [commit, Table.get?_insert] at hstate
    split at hstate
    · next heq =>
      rw [heq, ← Option.some.inj hstate]
      exact hs.prepare hprepare
    · exact hs.graph key' state hstate

end Session

end CallFold
