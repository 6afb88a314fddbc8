import CallFold.Proofs.Sessions
import Mathlib

/-!
# Methods do not interfere

The methods of a session share its store and its logs, and each of them has its own state. What an
analysis of a method finds depends on nothing but what belongs to this method, the settings and the
loader (`SameFor.findings`): the store holds what the loader has, whichever method made it load a
class. So two sessions in which everything is alike for a method (`Alike`) stay alike for it if both
analyse it (`Alike.analyzeMethod`), or if one analyses another method (`Analyzes.alike`).

It follows that a run does with a method what it would do if no other method were asked for
(`Alike.runInTurn_alone`). All this is first shown of runs whose methods are analysed in turn; any
other run comes to the same but for the order of the logs (`Rearranged.runAll`).
-/

namespace CallFold

/-! ## Loading -/

namespace CodeStore

variable {s s' : CodeStore} {load : Loader} {key : MethodKey} {type : String}

/-- A class that was asked for is loaded, if the loader has it. -/
theorem Faithful.get?_method (h : s.Faithful load) {c : ClassCode}
    (hload : load key.declaringType = .ok c) :
    (s.method load key).1.loaded.get? key.declaringType = some c := by
  rw [method_fst]
  unfold CodeStore.classCode
  split
  · next c' hget =>
    rw [h _ _ hget] at hload
    rw [hget, Except.ok.inj hload]
  · split
    · next c' hload' =>
      rw [hload'] at hload
      rw [Table.get?_insert_self, Except.ok.inj hload]
    · next hload' =>
      rw [hload'] at hload
      cases hload

theorem Grows.get?_of_some (h : s.Grows load type s') {type' : String} {c : ClassCode}
    (hc : s.loaded.get? type' = some c) : s'.loaded.get? type' = some c := by
  cases h with
  | same => exact hc
  | loaded hnew _ =>
    rw [Table.get?_insert]
    split
    · next heq =>
      rw [heq, hnew] at hc
      cases hc
    · exact hc

theorem Grows.get?_cases (h : s.Grows load type s') {type' : String} {c : ClassCode}
    (hc : s'.loaded.get? type' = some c) : s.loaded.get? type' = some c ∨ type' = type := by
  cases h with
  | same => exact Or.inl hc
  | loaded _ _ =>
    rw [Table.get?_insert] at hc
    split at hc
    · next heq => exact Or.inr heq
    · exact Or.inl hc

end CodeStore

namespace Session

variable {s s' t t' u : Session} {metadata : Metadata} {key other : MethodKey}
  {outcome : MethodPass} {methods methods' keys : List MethodKey} {summary : PassSummary}
  {allowed : Metadata → MethodKey → Prop}

/-! ## Sessions that are alike for a method -/

/-- The records of a method, each with the registration that was made with it. -/
def entriesOf (s : Session) (key : MethodKey) : List (ResolutionRecord × Registration) :=
  (s.resolutions.zip s.registrations).filter fun entry => entry.1.method = key

/-- Sessions with the same settings in which everything that belongs to a method is the same. -/
structure Alike (key : MethodKey) (s t : Session) : Prop extends SameFor key s t where
  settings : SameSettings s t
  entries : t.entriesOf key = s.entriesOf key

namespace Alike

theorem refl (key : MethodKey) (s : Session) : Alike key s s :=
  ⟨.refl key s, ⟨rfl, rfl, rfl, rfl⟩, rfl⟩

theorem symm (h : Alike key s t) : Alike key t s :=
  ⟨h.toSameFor.symm, h.settings.symm, h.entries.symm⟩

theorem trans (h : Alike key s t) (h' : Alike key t u) : Alike key s u :=
  ⟨h.toSameFor.trans h'.toSameFor, h.settings.trans h'.settings, h'.entries.trans h.entries⟩

end Alike

theorem SameFor.isComplete (h : SameFor key s t) : t.isComplete key = s.isComplete key := by
  rw [Session.isComplete, Session.isComplete, h.state]

/-- Beginning a pass touches no method. -/
theorem alike_begin (key : MethodKey) (s : Session) (passes : Nat) :
    Alike key s { s with passes } :=
  ⟨⟨rfl, rfl, rfl, rfl⟩, ⟨rfl, rfl, rfl, rfl⟩, rfl⟩

/-- Loading a class touches no method. -/
theorem alike_store (key : MethodKey) (s : Session) (store : CodeStore) :
    Alike key s { s with store } :=
  ⟨⟨rfl, rfl, rfl, rfl⟩, ⟨rfl, rfl, rfl, rfl⟩, rfl⟩

/-! ## Order in the books -/

/-- Something is kept of a method, or it was set aside. -/
def Seen (s : Session) (key : MethodKey) : Prop :=
  s.states.get? key ≠ none ∨ s.failure? key ≠ none

/--
A sound session with a registration for each record, which has loaded just those classes of which
methods were analysed.
-/
structure Orderly (s : Session) : Prop extends Sound s where
  paired : s.registrations.length = s.resolutions.length
  loaded : ∀ key c, s.Seen key → s.load key.declaringType = .ok c →
    s.store.loaded.get? key.declaringType = some c
  needed : ∀ type c, s.store.loaded.get? type = some c →
    ∃ key, key.declaringType = type ∧ s.Seen key

theorem orderly_fresh (config : Config) (load : Loader) (catalog : Catalog)
    (signatures : List CallSignature) (schedule : Schedule) :
    (fresh config load catalog signatures schedule).Orderly where
  toSound := sound_fresh config load catalog signatures schedule
  paired := rfl
  loaded key c hseen := by rcases hseen with h | h <;> exact absurd rfl h
  needed type c h := by cases h

/-- A class is loaded if the loader has it and a method of it was analysed. -/
theorem Orderly.get?_loaded_iff (hs : s.Orderly) {type : String} {c : ClassCode} :
    s.store.loaded.get? type = some c ↔
      s.load type = .ok c ∧ ∃ key, key.declaringType = type ∧ s.Seen key := by
  constructor
  · exact fun h => ⟨hs.store type c h, hs.needed type c h⟩
  · rintro ⟨hload, key, rfl, hseen⟩
    exact hs.loaded key c hseen hload

/-! ## Analysing the method -/

theorem prepare_snd (s : Session) (key : MethodKey) :
    (s.prepare key).2 = match s.states.get? key with
      | some state => .ok (state.graph, state.cache)
      | none =>
        match (s.store.method s.load key).2 with
        | .error e => .error e
        | .ok body =>
          ((FrameGraph.build body).map fun graph => (graph, .empty)).mapError .frame := by
  unfold prepare
  cases s.states.get? key with
  | some state => rfl
  | none =>
    generalize s.store.method s.load key = loaded
    obtain ⟨store, result⟩ := loaded
    cases result with
    | error e => rfl
    | ok body =>
      dsimp only
      cases FrameGraph.build body <;> rfl

/-- An evaluation finds the same whatever else is kept or loaded. -/
theorem SameFor.findings (h : SameFor key s t) (hsettings : SameSettings s t) (hs : s.Sound)
    (ht : t.Sound) (metadata : Metadata) : t.findings metadata key = s.findings metadata key := by
  have hload : t.store.Faithful s.load := hsettings.load ▸ ht.store
  have hprepare : (t.prepare key).2 = (s.prepare key).2 := by
    rw [prepare_snd, prepare_snd, h.state, hsettings.load, hload.method_snd hs.store]
  rw [Session.findings, Session.findings, hprepare]
  simp only [hsettings.evaluator]

theorem entriesOf_commit (hpaired : s.registrations.length = s.resolutions.length)
    (key other : MethodKey) (graph : FrameGraph) (cache : OutcomeCache) (report : MethodReport) :
    (s.commit other graph cache report).entriesOf key =
      s.entriesOf key ++ if other = key then
        report.resolved.map fun call => (recordOf other call, call.registration) else [] := by
  simp only [entriesOf, commit]
  rw [List.zip_append hpaired.symm, List.filter_append, List.zip_map']
  congr 1
  split
  · next heq =>
    refine List.filter_eq_self.mpr fun entry hentry => ?_
    obtain ⟨call, -, rfl⟩ := List.mem_map.mp hentry
    exact decide_eq_true heq
  · next hne =>
    refine List.filter_eq_nil_iff.mpr fun entry hentry => ?_
    obtain ⟨call, -, rfl⟩ := List.mem_map.mp hentry
    exact fun h => hne (of_decide_eq_true h)

/-- What sessions that are alike for a method make of the same findings is alike for it. -/
theorem Alike.conclude (h : Alike key s t)
    (hs : s.registrations.length = s.resolutions.length)
    (ht : t.registrations.length = t.resolutions.length)
    (found : Except Error (FrameGraph × OutcomeCache × MethodReport)) :
    (t.conclude key found).1 = (s.conclude key found).1 ∧
      Alike key (s.conclude key found).2 (t.conclude key found).2 := by
  cases found with
  | error e =>
    refine ⟨rfl, ⟨⟨h.state, ?_, h.records, h.tags⟩, ⟨h.settings.config, h.settings.load,
      h.settings.catalog, h.settings.safeCalls⟩, h.entries⟩⟩
    exact (Table.get?_insert_self t.failures key e).trans
      (Table.get?_insert_self s.failures key e).symm
  | ok found =>
    obtain ⟨graph, cache, report⟩ := found
    refine ⟨rfl, ⟨⟨?_, h.failure, ?_, ?_⟩, ⟨h.settings.config, h.settings.load,
      h.settings.catalog, h.settings.safeCalls⟩, ?_⟩⟩
    · exact (Table.get?_insert_self t.states key _).trans
        (Table.get?_insert_self s.states key _).symm
    · simp only [Session.conclude, commit, List.filter_append, h.records]
    · simp only [Session.conclude, commit, List.filter_append, h.tags, h.settings.config]
    · simp only [Session.conclude]
      rw [entriesOf_commit ht, entriesOf_commit hs, h.entries]

/-- The analysis of a method comes to the same in sessions that are alike for it. -/
theorem Alike.analyzeMethod (h : Alike key s t) (hs : s.Orderly) (ht : t.Orderly)
    (metadata : Metadata) :
    (t.analyzeMethod metadata key).1 = (s.analyzeMethod metadata key).1 ∧
      Alike key (s.analyzeMethod metadata key).2 (t.analyzeMethod metadata key).2 := by
  rw [analyzeMethod_eq, analyzeMethod_eq, h.contains_failures, h.isComplete]
  split
  · exact ⟨rfl, h⟩
  · rw [evaluateMethod, evaluateMethod,
      h.toSameFor.findings h.settings hs.toSound ht.toSound]
    have hstores : Alike key { s with store := (s.prepare key).1 }
        { t with store := (t.prepare key).1 } :=
      ((alike_store key s _).symm.trans h).trans (alike_store key t _)
    exact hstores.conclude hs.paired ht.paired _

/-- The analysis of another method leaves everything alike. -/
theorem Analyzes.alike (h : Analyzes s metadata other outcome s')
    (hs : s.registrations.length = s.resolutions.length) (hne : key ≠ other) :
    Alike key s s' := by
  refine ⟨h.sameFor hne, h.sameSettings, ?_⟩
  cases h with
  | skipped _ => rfl
  | failed _ _ => rfl
  | @analyzed store _ _ _ _ _ _ _ _ =>
    rw [entriesOf_commit (s := { s with store }) hs, if_neg hne.symm, List.append_nil]
    rfl

/-! ## Every session is orderly -/

theorem seen_conclude_iff {store : CodeStore}
    {found : Except Error (FrameGraph × OutcomeCache × MethodReport)} :
    ({ s with store }.conclude other found).2.Seen key ↔ key = other ∨ s.Seen key := by
  cases found with
  | error e =>
    by_cases heq : key = other
    · simp [Session.conclude, Seen, setAside, failure?, heq]
    · simp [Session.conclude, Seen, setAside, failure?, Table.get?_insert_of_ne _ _ heq, heq]
  | ok found =>
    obtain ⟨graph, cache, report⟩ := found
    by_cases heq : key = other
    · simp [Session.conclude, Seen, commit, failure?, heq]
    · simp [Session.conclude, Seen, commit, failure?, Table.get?_insert_of_ne _ _ heq, heq]

theorem store_conclude (s : Session) (key : MethodKey)
    (found : Except Error (FrameGraph × OutcomeCache × MethodReport)) :
    (s.conclude key found).2.store = s.store ∧ (s.conclude key found).2.load = s.load := by
  cases found <;> exact ⟨rfl, rfl⟩

/-- To prepare a method, its class is loaded, unless something is kept of the method. -/
theorem prepare_fst (s : Session) (key : MethodKey) :
    (s.prepare key).1 =
      if s.states.get? key = none then (s.store.method s.load key).1 else s.store := by
  unfold prepare
  cases s.states.get? key with
  | some state => simp
  | none =>
    generalize s.store.method s.load key = loaded
    obtain ⟨store, result⟩ := loaded
    cases result with
    | error e => rfl
    | ok body =>
      dsimp only
      cases FrameGraph.build body <;> rfl

theorem Orderly.get?_prepare (hs : s.Orderly) {c : ClassCode}
    (hload : s.load key.declaringType = .ok c) :
    (s.prepare key).1.loaded.get? key.declaringType = some c := by
  rw [prepare_fst]
  split
  · exact hs.store.get?_method hload
  · next hkept => exact hs.loaded key c (Or.inl hkept) hload

theorem Orderly.evaluateMethod (hs : s.Orderly) (hopen : s.failures.contains key = false)
    (metadata : Metadata) : (s.evaluateMethod metadata key).2.Orderly := by
  have hanalyzes := analyzes_evaluateMethod hopen metadata
  have hgrows := grows_prepare s key
  have hpaired : (s.evaluateMethod metadata key).2.registrations.length =
      (s.evaluateMethod metadata key).2.resolutions.length := by
    generalize s.evaluateMethod metadata key = turn at hanalyzes
    obtain ⟨outcome, s'⟩ := turn
    cases hanalyzes with
    | skipped _ => exact hs.paired
    | failed _ _ => exact hs.paired
    | analyzed _ _ _ _ => simp [hs.paired]
  refine ⟨hanalyzes.sound hs.toSound, hpaired, ?_, ?_⟩
  · intro key' c hseen hload
    rw [Session.evaluateMethod] at hseen hload ⊢
    rw [(store_conclude _ _ _).2] at hload
    rw [(store_conclude _ _ _).1]
    rcases seen_conclude_iff.mp hseen with rfl | hold
    · exact hs.get?_prepare hload
    · exact hgrows.get?_of_some (hs.loaded key' c hold hload)
  · intro type c hc
    rw [Session.evaluateMethod] at hc ⊢
    rw [(store_conclude _ _ _).1] at hc
    rcases hgrows.get?_cases hc with hold | rfl
    · obtain ⟨key', htype, hseen⟩ := hs.needed type c hold
      exact ⟨key', htype, seen_conclude_iff.mpr (Or.inr hseen)⟩
    · exact ⟨key, rfl, seen_conclude_iff.mpr (Or.inl rfl)⟩

theorem Orderly.analyzeMethod (hs : s.Orderly) (metadata : Metadata) (key : MethodKey) :
    (s.analyzeMethod metadata key).2.Orderly := by
  rw [analyzeMethod_eq]
  split
  · exact hs
  · next hopen =>
    rw [Bool.not_eq_true, Bool.or_eq_false_iff] at hopen
    exact hs.evaluateMethod hopen.1 metadata

theorem Orderly.begin (hs : s.Orderly) (passes : Nat) : Orderly { s with passes } :=
  ⟨⟨hs.store, hs.graph⟩, hs.paired, hs.loaded, hs.needed⟩

theorem Orderly.analyzeAll (hs : s.Orderly) (metadata : Metadata) (keys : List MethodKey)
    (summary : PassSummary) : (analyzeAll metadata keys summary s).2.Orderly := by
  induction keys generalizing summary s with
  | nil => exact hs
  | cons key keys ih => exact ih (hs.analyzeMethod metadata key) _

theorem Orderly.passInTurn (hs : s.Orderly) (metadata : Metadata) (methods : List MethodKey) :
    (s.passInTurn metadata methods).2.Orderly := by
  unfold Session.passInTurn
  split
  · exact (hs.begin _).analyzeAll metadata _ _
  · exact hs.begin _

/-- Order in the books is not a matter of the order of their entries. -/
theorem Rearranged.orderly (h : Rearranged s t) (hs : s.Orderly) : t.Orderly := by
  have hseen : ∀ key, t.Seen key ↔ s.Seen key := by
    intro key
    rw [Seen, Seen, (h.methods key).state, (h.methods key).failure]
  refine ⟨h.sound hs.toSound, ?_, fun key c hkey hload => ?_, fun type c hc => ?_⟩
  · rw [h.registrations.length_eq, h.records.length_eq]
    exact hs.paired
  · rw [h.settings.load] at hload
    rw [h.classes]
    exact hs.loaded key c ((hseen key).mp hkey) hload
  · rw [h.classes] at hc
    obtain ⟨key, htype, hkey⟩ := hs.needed type c hc
    exact ⟨key, htype, (hseen key).mpr hkey⟩

theorem Evolves.orderly (h : Evolves allowed s t) (hs : s.Orderly) : t.Orderly := by
  induction h with
  | refl => exact hs
  | begin _ ih => exact (ih hs).begin _
  | @analyze _ u metadata key _ _ ih => exact (ih hs).analyzeMethod metadata key
  | reorder _ _ hreordered ih ihSince => exact hreordered.rearranged.orderly (ihSince (ih hs))

theorem Reachable.orderly (hs : s.Reachable) : s.Orderly := by
  obtain ⟨config, load, catalog, signatures, schedule, requests, rfl⟩ := hs
  have hfresh := orderly_fresh config load catalog signatures schedule
  exact (evolves_serveAll hfresh.toSound requests).orderly hfresh

/-! ## Runs -/

/-- Analyses of other methods leave everything alike. -/
theorem alike_analyzeAll_of_notMem (hs : s.Orderly) (metadata : Metadata) (hkey : key ∉ keys)
    (summary : PassSummary) : Alike key s (analyzeAll metadata keys summary s).2 := by
  induction keys generalizing summary s with
  | nil => exact .refl key s
  | cons other keys ih =>
    obtain ⟨hne, hkeys⟩ := not_or.mp (List.mem_cons.not.mp hkey)
    have hturn := (analyzes_analyzeMethod s metadata other).alike hs.paired hne
    exact hturn.trans (ih (hs.analyzeMethod metadata other) hkeys _)

/-- Some analyses come to the same for a method as the one analysis of it. -/
theorem alike_analyzeAll (hs : s.Orderly) (metadata : Metadata) (hkeys : keys.Nodup)
    (hkey : key ∈ keys) (summary : PassSummary) :
    Alike key (s.analyzeMethod metadata key).2 (analyzeAll metadata keys summary s).2 := by
  obtain ⟨before, after, rfl⟩ := List.append_of_mem hkey
  rw [List.nodup_middle, List.nodup_cons, List.mem_append, not_or] at hkeys
  obtain ⟨⟨hbefore, hafter⟩, -⟩ := hkeys
  rw [analyzeAll_append, analyzeAll_cons]
  have hfirst := alike_analyzeAll_of_notMem hs metadata hbefore summary
  have hmid := hs.analyzeAll metadata before summary
  generalize analyzeAll metadata before summary s = mid at hfirst hmid
  have hturn := (hfirst.analyzeMethod hs hmid metadata).2
  exact hturn.trans (alike_analyzeAll_of_notMem (hmid.analyzeMethod metadata key) metadata hafter _)

theorem alike_passInTurn_of_notMem (hs : s.Orderly) (metadata : Metadata) (hkey : key ∉ methods) :
    Alike key s (s.passInTurn metadata methods).2 := by
  have hbegun := alike_begin key s (s.passes + 1)
  unfold passInTurn
  split
  · exact hbegun.trans (alike_analyzeAll_of_notMem (hs.begin _) metadata
      (fun hmem => hkey (mem_distinctKeys_iff.mp hmem)) _)
  · exact hbegun

/-- A pass comes to the same for a method as the one analysis of it. -/
theorem alike_passInTurn_of_mem (hs : s.Orderly) (henabled : s.config.enabled = true)
    (metadata : Metadata) (hkey : key ∈ methods) :
    Alike key (s.analyzeMethod metadata key).2 (s.passInTurn metadata methods).2 := by
  have hbegun := hs.begin (s.passes + 1)
  have hturn := ((alike_begin key s _).analyzeMethod hs hbegun metadata).2
  rw [passInTurn, if_pos henabled]
  exact hturn.trans (alike_analyzeAll hbegun metadata (nodup_distinctKeys methods)
    (mem_distinctKeys_iff.mpr hkey) _)

theorem alike_passInTurn_of_disabled (hdisabled : ¬ s.config.enabled = true) (key : MethodKey)
    (metadata : Metadata) (methods : List MethodKey) :
    Alike key s (s.passInTurn metadata methods).2 := by
  rw [passInTurn, if_neg hdisabled]
  exact alike_begin key s _

/-- Passes that both ask for a method, or neither, keep sessions alike for it. -/
theorem Alike.passInTurn (h : Alike key s t) (hs : s.Orderly) (ht : t.Orderly)
    (metadata : Metadata) (hkey : key ∈ methods ↔ key ∈ methods') :
    Alike key (s.passInTurn metadata methods).2 (t.passInTurn metadata methods').2 := by
  by_cases henabled : s.config.enabled = true
  · have henabled' : t.config.enabled = true := h.settings.config ▸ henabled
    by_cases hmem : key ∈ methods
    · refine (alike_passInTurn_of_mem hs henabled metadata hmem).symm.trans ?_
      exact (h.analyzeMethod hs ht metadata).2.trans
        (alike_passInTurn_of_mem ht henabled' metadata (hkey.mp hmem))
    · refine (alike_passInTurn_of_notMem hs metadata hmem).symm.trans (h.trans ?_)
      exact alike_passInTurn_of_notMem ht metadata fun hmem' => hmem (hkey.mpr hmem')
  · have hdisabled' : ¬ t.config.enabled = true := h.settings.config ▸ henabled
    refine (alike_passInTurn_of_disabled henabled key metadata methods).symm.trans (h.trans ?_)
    exact alike_passInTurn_of_disabled hdisabled' key metadata methods'

/-- Runs some passes whose methods are analysed in turn. -/
def runInTurn : List (Metadata × List MethodKey) → Session → List PassSummary × Session
  | [], s => ([], s)
  | (metadata, methods) :: rest, s =>
    let (summary, s') := s.passInTurn metadata methods
    let (summaries, last) := runInTurn rest s'
    (summary :: summaries, last)

theorem runInTurn_cons (metadata : Metadata) (methods : List MethodKey)
    (passes : List (Metadata × List MethodKey)) (s : Session) :
    runInTurn ((metadata, methods) :: passes) s =
      ((s.passInTurn metadata methods).1 :: (runInTurn passes (s.passInTurn metadata methods).2).1,
        (runInTurn passes (s.passInTurn metadata methods).2).2) := rfl

theorem Orderly.runInTurn (hs : s.Orderly) (passes : List (Metadata × List MethodKey)) :
    (runInTurn passes s).2.Orderly := by
  induction passes generalizing s with
  | nil => exact hs
  | cons pass passes ih => exact ih (hs.passInTurn pass.1 pass.2)

/-- The metadata of the passes that ask for a method. -/
def metadataFor (key : MethodKey) (passes : List (Metadata × List MethodKey)) : List Metadata :=
  (passes.filter fun pass => key ∈ pass.2).map Prod.fst

/-- A run does with a method what it would do if no other method were asked for. -/
theorem Alike.runInTurn_alone (h : Alike key s t) (hs : s.Orderly) (ht : t.Orderly)
    (passes : List (Metadata × List MethodKey)) :
    Alike key (runInTurn passes s).2
      (runInTurn ((metadataFor key passes).map fun metadata => (metadata, [key])) t).2 := by
  induction passes generalizing s t with
  | nil => exact h
  | cons pass passes ih =>
    obtain ⟨metadata, methods⟩ := pass
    unfold metadataFor
    by_cases hmem : key ∈ methods
    · rw [List.filter_cons_of_pos (by simpa using hmem), List.map_cons, List.map_cons]
      refine ih (h.passInTurn hs ht metadata ?_) (hs.passInTurn _ _) (ht.passInTurn _ _)
      simpa using hmem
    · rw [List.filter_cons_of_neg (by simpa using hmem)]
      exact ih ((alike_passInTurn_of_notMem hs metadata hmem).symm.trans h)
        (hs.passInTurn _ _) ht

/-- Runs that ask for a method with the same metadata come to the same for it. -/
theorem Alike.runInTurn (h : Alike key s t) (hs : s.Orderly) (ht : t.Orderly)
    {passes passes' : List (Metadata × List MethodKey)}
    (hsame : metadataFor key passes = metadataFor key passes') :
    Alike key (runInTurn passes s).2 (runInTurn passes' t).2 := by
  have halone := h.runInTurn_alone hs ht passes
  rw [hsame] at halone
  exact halone.trans ((Alike.refl key t).runInTurn_alone ht ht passes').symm

/-! ## Runs in another order -/

namespace Rearranged

theorem begin (h : Rearranged s t) (passes : Nat) :
    Rearranged { s with passes } { t with passes } where
  settings := ⟨h.settings.config, h.settings.load, h.settings.catalog, h.settings.safeCalls⟩
  methods key := ⟨(h.methods key).state, (h.methods key).failure, (h.methods key).records,
    (h.methods key).tags⟩
  classes := h.classes
  registrations := h.registrations
  records := h.records
  tags := h.tags

/-- The same effect leaves sessions as they are to each other. -/
theorem perform (h : Rearranged s t) (key : MethodKey) (effect : Effect) :
    Rearranged (s.perform key effect) (t.perform key effect) where
  settings := ((sameSettings_perform s key effect).symm.trans h.settings).trans
    (sameSettings_perform t key effect)
  methods other := by
    obtain ⟨hstate, hfailure, hrecords, htags⟩ := h.methods other
    cases effect with
    | load => exact ⟨hstate, hfailure, hrecords, htags⟩
    | register registration => exact ⟨hstate, hfailure, hrecords, htags⟩
    | record call =>
      refine ⟨hstate, hfailure, ?_, htags⟩
      simp only [Session.perform, List.filter_append, hrecords]
    | tag call =>
      refine ⟨hstate, hfailure, hrecords, ?_⟩
      simp only [Session.perform, List.filter_append, htags]
    | keep state =>
      refine ⟨?_, hfailure, hrecords, htags⟩
      simp only [Session.perform, Table.get?_insert, hstate]
    | setAside e =>
      refine ⟨hstate, ?_, hrecords, htags⟩
      show (t.failures.insert key e).get? other = (s.failures.insert key e).get? other
      rw [Table.get?_insert, Table.get?_insert, show t.failures.get? other = _ from hfailure]
      rfl
  classes type := by
    refine Option.ext fun c => ?_
    rw [get?_loaded_perform_iff, get?_loaded_perform_iff, h.classes, h.settings.load]
  registrations := by
    cases effect with
    | register registration => exact h.registrations.append_right _
    | _ => exact h.registrations
  records := by
    cases effect with
    | record call => exact h.records.append_right _
    | _ => exact h.records
  tags := by
    cases effect with
    | tag call => exact h.tags.append_right _
    | _ => exact h.tags

/-- A task gets the same answers, and so it comes to the same and does the same. -/
theorem settle (h : Rearranged s t) (hs : s.store.Faithful s.load) (ht : t.store.Faithful t.load)
    (task : Task) (key : MethodKey) :
    (task.settle key t).1 = (task.settle key s).1 ∧
      Rearranged (task.settle key s).2 (task.settle key t).2 := by
  induction task generalizing s t with
  | done outcome => exact ⟨rfl, h⟩
  | askFailure next ih =>
    have hanswer : t.failures.get? key = s.failures.get? key := (h.methods key).failure
    simp only [Task.settle, hanswer]
    exact ih _ h hs ht
  | askState next ih =>
    simp only [Task.settle, (h.methods key).state]
    exact ih _ h hs ht
  | load next ih =>
    have hanswer : (t.store.method t.load key).2 = (s.store.method s.load key).2 := by
      rw [h.settings.load] at ht ⊢
      exact ht.method_snd hs key
    simp only [Task.settle, hanswer]
    exact ih _ (h.perform key .load) (faithful_perform hs key .load) (faithful_perform ht key .load)
  | act effect next ih =>
    exact ih (h.perform key effect) (faithful_perform hs key effect)
      (faithful_perform ht key effect)

/-- The analysis of a method does not depend on the order of the logs. -/
theorem analyzeMethod (h : Rearranged s t) (hs : s.Sound) (ht : t.Sound) (metadata : Metadata)
    (key : MethodKey) :
    (t.analyzeMethod metadata key).1 = (s.analyzeMethod metadata key).1 ∧
      Rearranged (s.analyzeMethod metadata key).2 (t.analyzeMethod metadata key).2 := by
  rw [Session.analyzeMethod, Session.analyzeMethod, h.settings.analysis]
  exact h.settle hs.store ht.store _ key

theorem analyzeAll (h : Rearranged s t) (hs : s.Sound) (ht : t.Sound) (metadata : Metadata)
    (keys : List MethodKey) (summary : PassSummary) :
    (analyzeAll metadata keys summary t).1 = (analyzeAll metadata keys summary s).1 ∧
      Rearranged (analyzeAll metadata keys summary s).2 (analyzeAll metadata keys summary t).2 := by
  induction keys generalizing summary s t with
  | nil => exact ⟨rfl, h⟩
  | cons key keys ih =>
    obtain ⟨houtcome, hturn⟩ := h.analyzeMethod hs ht metadata key
    rw [analyzeAll_cons, analyzeAll_cons, houtcome]
    exact ih hturn ((analyzes_analyzeMethod s metadata key).sound hs)
      ((analyzes_analyzeMethod t metadata key).sound ht) _

theorem passInTurn (h : Rearranged s t) (hpasses : t.passes = s.passes) (hs : s.Sound)
    (ht : t.Sound) (metadata : Metadata) (methods : List MethodKey) :
    (t.passInTurn metadata methods).1 = (s.passInTurn metadata methods).1 ∧
      Rearranged (s.passInTurn metadata methods).2 (t.passInTurn metadata methods).2 := by
  have henabled : t.config.enabled = s.config.enabled := by rw [h.settings.config]
  simp only [Session.passInTurn, henabled, hpasses]
  split
  · exact (h.begin (s.passes + 1)).analyzeAll ⟨hs.store, hs.graph⟩ ⟨ht.store, ht.graph⟩
      metadata _ _
  · exact ⟨rfl, h.begin (s.passes + 1)⟩

end Rearranged

theorem Analyzes.passes {outcome : MethodPass} (h : Analyzes s metadata key outcome t) :
    t.passes = s.passes := by
  cases h <;> rfl

theorem passes_analyzeAll (metadata : Metadata) (keys : List MethodKey) (summary : PassSummary)
    (s : Session) : (analyzeAll metadata keys summary s).2.passes = s.passes := by
  induction keys generalizing summary s with
  | nil => rfl
  | cons key keys ih =>
    rw [analyzeAll_cons, ih, (analyzes_analyzeMethod s metadata key).passes]

theorem passes_passInTurn (s : Session) (metadata : Metadata) (methods : List MethodKey) :
    (s.passInTurn metadata methods).2.passes = s.passes + 1 := by
  unfold passInTurn
  split
  · exact passes_analyzeAll metadata _ _ _
  · rfl

/--
A run comes to the same as one whose methods are analysed in turn, but for the order of the log
entries, and its summaries are the same.
-/
theorem Rearranged.runAll (h : Rearranged s t) (hpasses : t.passes = s.passes) (hs : s.Orderly)
    (passes : List (Metadata × List MethodKey)) :
    (runAll passes t).1 = (runInTurn passes s).1 ∧
      Rearranged (runInTurn passes s).2 (runAll passes t).2 := by
  induction passes generalizing s t with
  | nil => exact ⟨rfl, h⟩
  | cons pass passes ih =>
    obtain ⟨metadata, methods⟩ := pass
    have ht := (h.orderly hs).toSound
    -- first to the pass in turn of the other session, and from there to the pass as it is
    obtain ⟨hsummary, hturns⟩ := h.passInTurn hpasses hs.toSound ht metadata methods
    obtain ⟨hsummary', hreordered⟩ := runPass_reordered ht metadata methods
    have hnext : (t.runPass metadata methods).2.passes =
        (s.passInTurn metadata methods).2.passes := by
      rw [hreordered.passes, passes_passInTurn, passes_passInTurn, hpasses]
    obtain ⟨hsummaries, hlast⟩ :=
      ih (hturns.trans hreordered.rearranged) hnext (hs.passInTurn metadata methods)
    rw [runAll_cons, runInTurn_cons, hsummary', hsummary, hsummaries]
    exact ⟨rfl, hlast⟩

theorem runAll_of_sequential (h : s.config.parallel = false)
    (passes : List (Metadata × List MethodKey)) : runAll passes s = runInTurn passes s := by
  induction passes generalizing s with
  | nil => rfl
  | cons pass passes ih =>
    have hnext : (s.passInTurn pass.1 pass.2).2.config.parallel = false := by
      rw [(sameSettings_passInTurn s pass.1 pass.2).config]
      exact h
    rw [runAll_cons, runInTurn_cons, runPass_of_sequential h, ih hnext]

end Session

end CallFold
