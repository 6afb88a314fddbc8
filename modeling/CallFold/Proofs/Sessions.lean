import CallFold.Proofs.Interleaving
import Mathlib

/-!
# What happens to a session

`Session.Evolves` is the course of a session over any number of passes, with its states within a
pass. Laws of sessions are proved for one analysis, and for sessions that differ in the order of
their logs only, and are carried along this relation. Every pass is such a course, whether its
methods are analysed in turn or at the same time (`Evolves.runPass`).
-/

namespace CallFold.Session

variable {s s' t : Session} {metadata : Metadata} {key other : MethodKey} {outcome : MethodPass}

/-! ## The course of a session -/

/--
A session comes from another one by beginning passes and analysing methods that are allowed. What
was done since some point may have been done at the same time, and so in another order.
-/
inductive Evolves (allowed : Metadata → MethodKey → Prop) : Session → Session → Prop where
  | refl {s : Session} : Evolves allowed s s
  | begin {s t : Session} (h : Evolves allowed s t) :
      Evolves allowed s { t with passes := t.passes + 1 }
  | analyze {s t : Session} {metadata : Metadata} {key : MethodKey} (h : Evolves allowed s t)
      (hallowed : allowed metadata key) : Evolves allowed s (t.analyzeMethod metadata key).2
  | reorder {s t u v : Session} (h : Evolves allowed s t) (hsince : Evolves allowed t u)
      (hreordered : Reordered t u v) : Evolves allowed s v

variable {allowed : Metadata → MethodKey → Prop}

/-- What holds of a session and is kept by every analysis holds in its whole course. -/
theorem Evolves.invariant (h : Evolves allowed s t) {Inv : Session → Prop} (hs : Inv s)
    (hbegin : ∀ u : Session, Inv u → Inv { u with passes := u.passes + 1 })
    (hanalyze : ∀ u metadata key outcome u', allowed metadata key → Inv u →
      Analyzes u metadata key outcome u' → Inv u')
    (hreorder : ∀ t u v, Inv u → Reordered t u v → Inv v) : Inv t := by
  induction h with
  | refl => exact hs
  | begin _ ih => exact hbegin _ (ih hs)
  | @analyze _ u metadata key _ hallowed ih =>
    exact hanalyze u metadata key _ _ hallowed (ih hs) (analyzes_analyzeMethod u metadata key)
  | reorder _ _ hreordered ih ihSince => exact hreorder _ _ _ (ihSince (ih hs)) hreordered

theorem Evolves.trans {u : Session} (h : Evolves allowed s t) (h' : Evolves allowed t u) :
    Evolves allowed s u := by
  induction h' with
  | refl => exact h
  | begin _ ih => exact (ih h).begin
  | analyze _ hallowed ih => exact (ih h).analyze hallowed
  | reorder _ hsince hreordered ih _ => exact (ih h).reorder hsince hreordered

theorem Evolves.sameSettings (h : Evolves allowed s t) : SameSettings s t :=
  h.invariant ⟨rfl, rfl, rfl, rfl⟩ (fun _ h => ⟨h.config, h.load, h.catalog, h.safeCalls⟩)
    (fun _ _ _ _ _ _ hu hanalyzes => hu.trans hanalyzes.sameSettings)
    fun _ _ _ hu hreordered => hu.trans hreordered.settings

theorem Rearranged.sound (h : Rearranged s t) (hs : s.Sound) : t.Sound where
  store type c hc := by
    rw [h.classes] at hc
    rw [h.settings.load]
    exact hs.store type c hc
  graph key state hstate := by
    rw [(h.methods key).state] at hstate
    rw [h.settings.load]
    exact hs.graph key state hstate

theorem Evolves.sound (h : Evolves allowed s t) (hs : s.Sound) : t.Sound :=
  h.invariant hs (fun _ hu => ⟨hu.store, hu.graph⟩)
    (fun _ _ _ _ _ _ hu hanalyzes => hanalyzes.sound hu)
    fun _ _ _ hu hreordered => hreordered.rearranged.sound hu

/-- A method that was set aside, or is never analysed, stays as it is. -/
theorem Evolves.sameFor (h : Evolves allowed s t)
    (hkey : s.failures.contains key = true ∨ ∀ metadata, ¬ allowed metadata key) :
    SameFor key s t := by
  refine h.invariant (.refl key s) (fun _ hu => ⟨hu.state, hu.failure, hu.records, hu.tags⟩) ?_
    fun _ _ _ hu hreordered => hu.trans (hreordered.methods key)
  intro u metadata other outcome u' hallowed hu hanalyzes
  by_cases hne : key = other
  · subst hne
    rcases hkey with hfailed | hno
    · rw [← hu.contains_failures] at hfailed
      cases hanalyzes with
      | skipped _ => exact hu
      | failed hopen _ => simp [hfailed] at hopen
      | analyzed hopen _ _ _ => simp [hfailed] at hopen
    · exact absurd hallowed (hno metadata)
  · exact hu.trans (hanalyzes.sameFor hne)

/-! ## Passes -/

variable {methods keys : List MethodKey} {summary : PassSummary}

theorem Evolves.analyzeAll (h : Evolves allowed s t) (hkeys : ∀ key ∈ keys, allowed metadata key)
    (summary : PassSummary) : Evolves allowed s (analyzeAll metadata keys summary t).2 := by
  induction keys generalizing summary t with
  | nil => exact h
  | cons key keys ih =>
    exact ih (h.analyze (hkeys key List.mem_cons_self))
      (fun key' hkey' => hkeys key' (List.mem_cons_of_mem _ hkey')) _

/-- The methods of a pass are analysed after it was begun. -/
theorem evolves_passInTurn (s : Session) (hkeys : ∀ key ∈ methods, allowed metadata key) :
    Evolves allowed { s with passes := s.passes + 1 } (s.passInTurn metadata methods).2 := by
  unfold passInTurn
  split
  · exact Evolves.refl.analyzeAll (fun key hkey => hkeys key (mem_distinctKeys_iff.mp hkey)) _
  · exact .refl

theorem sameSettings_passInTurn (s : Session) (metadata : Metadata) (methods : List MethodKey) :
    SameSettings s (s.passInTurn metadata methods).2 := by
  have hbegun : SameSettings s { s with passes := s.passes + 1 } := ⟨rfl, rfl, rfl, rfl⟩
  have hturns : Evolves (fun _ _ => True) { s with passes := s.passes + 1 }
    (s.passInTurn metadata methods).2 := evolves_passInTurn s fun _ _ => trivial
  exact hbegun.trans hturns.sameSettings

theorem Evolves.runPass (h : Evolves allowed s t) (hs : s.Sound)
    (hkeys : ∀ key ∈ methods, allowed metadata key) :
    Evolves allowed s (t.runPass metadata methods).2 :=
  h.begin.reorder (evolves_passInTurn t hkeys)
    (runPass_reordered (h.sound hs) metadata methods).2

theorem evolves_runPass (hs : s.Sound) (metadata : Metadata) (methods : List MethodKey) :
    Evolves (fun _ _ => True) s (s.runPass metadata methods).2 :=
  Evolves.refl.runPass hs fun _ _ => trivial

theorem sameSettings_runPass (s : Session) (metadata : Metadata) (methods : List MethodKey) :
    SameSettings s (s.runPass metadata methods).2 := by
  by_cases henabled : s.config.enabled = true
  · obtain ⟨trace, _, hpass, -⟩ := exists_executes henabled metadata methods
    rw [hpass.eq_performAll]
    have hbegun : SameSettings s { s with passes := s.passes + 1 } := ⟨rfl, rfl, rfl, rfl⟩
    exact hbegun.trans (sameSettings_performAll _ trace)
  · rw [runPass, if_neg henabled]
    exact ⟨rfl, rfl, rfl, rfl⟩

/-- Runs some passes in turn, each with the metadata of its time. -/
def runAll : List (Metadata × List MethodKey) → Session → List PassSummary × Session
  | [], s => ([], s)
  | (metadata, methods) :: rest, s =>
    let (summary, s') := s.runPass metadata methods
    let (summaries, last) := runAll rest s'
    (summary :: summaries, last)

theorem runAll_cons (metadata : Metadata) (methods : List MethodKey)
    (passes : List (Metadata × List MethodKey)) (s : Session) :
    runAll ((metadata, methods) :: passes) s =
      ((s.runPass metadata methods).1 :: (runAll passes (s.runPass metadata methods).2).1,
        (runAll passes (s.runPass metadata methods).2).2) := rfl

theorem Evolves.runAll (h : Evolves allowed s t) (hs : s.Sound)
    {passes : List (Metadata × List MethodKey)}
    (hpasses : ∀ pass ∈ passes, ∀ key ∈ pass.2, allowed pass.1 key) :
    Evolves allowed s (runAll passes t).2 := by
  induction passes generalizing t with
  | nil => exact h
  | cons pass passes ih =>
    exact ih (h.runPass hs (hpasses pass List.mem_cons_self))
      fun pass' hpass' => hpasses pass' (List.mem_cons_of_mem _ hpass')

theorem evolves_runAll (hs : s.Sound) (passes : List (Metadata × List MethodKey)) :
    Evolves (fun _ _ => True) s (runAll passes s).2 :=
  Evolves.refl.runAll hs fun _ _ _ _ => trivial

/-! ## Passes until one resolves nothing -/

theorem runPasses_of_resolved (hpass : s.runPass metadata methods = (summary, t))
    (h : 0 < summary.resolved) (limit : Nat) :
    runPasses metadata methods (limit + 1) s =
      (summary :: (runPasses metadata methods limit t).1,
        (runPasses metadata methods limit t).2) := by
  simp only [runPasses, hpass, PassSummary.requiresAnotherPass, h, decide_true, if_true]

theorem runPasses_of_stable (hpass : s.runPass metadata methods = (summary, t))
    (h : summary.resolved = 0) (limit : Nat) :
    runPasses metadata methods (limit + 1) s = ([summary], t) := by
  simp [runPasses, hpass, PassSummary.requiresAnotherPass, h]

theorem runPasses_ne_nil (metadata : Metadata) (methods : List MethodKey) (limit : Nat)
    (s : Session) : (runPasses metadata methods (limit + 1) s).1 ≠ [] := by
  rcases Nat.eq_zero_or_pos (s.runPass metadata methods).1.resolved with hstable | hresolved
  · simp [runPasses_of_stable rfl hstable]
  · simp [runPasses_of_resolved rfl hresolved]

/-- The last summary is that of the pass that led to the session at the end. -/
theorem exists_last_pass {limit : Nat} {summaries : List PassSummary} (hs : s.Sound)
    (h : runPasses metadata methods limit s = (summaries, t))
    (hlast : summaries.getLast? = some summary) :
    ∃ u, Evolves (fun m key => m = metadata ∧ key ∈ methods) s u ∧
      u.runPass metadata methods = (summary, t) := by
  induction limit generalizing s summaries with
  | zero =>
    obtain ⟨rfl, -⟩ := Prod.mk.inj h
    simp at hlast
  | succ limit ih =>
    rcases Nat.eq_zero_or_pos (s.runPass metadata methods).1.resolved with hstable | hresolved
    · rw [runPasses_of_stable rfl hstable] at h
      obtain ⟨rfl, rfl⟩ := Prod.mk.inj h
      exact ⟨s, .refl, Prod.ext (Option.some.inj hlast) rfl⟩
    · rw [runPasses_of_resolved rfl hresolved] at h
      obtain ⟨rfl, ht⟩ := Prod.mk.inj h
      cases limit with
      | zero => exact ⟨s, .refl, Prod.ext (Option.some.inj hlast) ht⟩
      | succ limit =>
        -- another pass follows, so the last one is found after the first
        rw [List.getLast?_cons_of_ne_nil (runPasses_ne_nil metadata methods limit _)] at hlast
        have hnext := (evolves_runPass hs metadata methods).sound hs
        obtain ⟨u, hevolves, hpass⟩ := ih hnext (Prod.ext rfl ht) hlast
        exact ⟨u, (Evolves.refl.runPass hs fun key hkey => ⟨rfl, hkey⟩).trans hevolves, hpass⟩

theorem Evolves.runPasses (h : Evolves allowed s t) (hs : s.Sound)
    (hkeys : ∀ key ∈ methods, allowed metadata key)
    (limit : Nat) : Evolves allowed s (runPasses metadata methods limit t).2 := by
  induction limit generalizing t with
  | zero => exact h
  | succ limit ih =>
    rcases Nat.eq_zero_or_pos (t.runPass metadata methods).1.resolved with hstable | hresolved
    · rw [runPasses_of_stable rfl hstable]
      exact h.runPass hs hkeys
    · rw [runPasses_of_resolved rfl hresolved]
      exact ih (h.runPass hs hkeys)

/-! ## Requests -/

/-- What a session can be asked for: one pass, or passes until one resolves nothing. -/
inductive Request where
  | pass (metadata : Metadata) (methods : List MethodKey)
  | untilStable (metadata : Metadata) (methods : List MethodKey)

/-- The session after a request. -/
def serve (s : Session) : Request → Session
  | .pass metadata methods => (s.runPass metadata methods).2
  | .untilStable metadata methods => (s.runUntilStable metadata methods).2

/-- The session after some requests. -/
def serveAll (requests : List Request) (s : Session) : Session :=
  requests.foldl serve s

/-- A session that comes from a new one by requests. -/
def Reachable (s : Session) : Prop :=
  ∃ config load catalog signatures schedule requests,
    serveAll requests (fresh config load catalog signatures schedule) = s

/-- Between requests, any metadata and any methods may be chosen. -/
theorem evolves_serveAll (hs : s.Sound) (requests : List Request) :
    Evolves (fun _ _ => True) s (serveAll requests s) := by
  induction requests generalizing s with
  | nil => exact .refl
  | cons request requests ih =>
    have hserve : Evolves (fun _ _ => True) s (s.serve request) := by
      cases request with
      | pass metadata methods => exact evolves_runPass hs metadata methods
      | untilStable metadata methods => exact Evolves.refl.runPasses hs (fun _ _ => trivial) _
    exact hserve.trans (ih (hserve.sound hs))

theorem Reachable.sound (hs : s.Reachable) : s.Sound := by
  obtain ⟨config, load, catalog, signatures, schedule, requests, rfl⟩ := hs
  have hfresh := sound_fresh config load catalog signatures schedule
  exact (evolves_serveAll hfresh requests).sound hfresh

/-- Metadata that knows some classes, but none of their members, for small sessions. -/
def knowing (classes : List String) : Metadata where
  classForName name := if name ∈ classes then some (.named name) else none
  lookupField owner name _ := .error (.noSuchField owner.render name)
  lookupMethod owner name _ _ := .error (.noSuchMethod owner.render name "")
  lookupConstructor owner _ _ := .error (.noSuchConstructor owner.render "")
  members _ _ := []

end CallFold.Session
