import CallFold.Proofs.Bookkeeping
import CallFold.Proofs.LeastFixedPoint
import Mathlib

/-!
# Outcomes that stay

A resolved call is settled for good. The kept state of a method is replaced as a whole by every
evaluation, and the metadata that handlers consult may be other in every pass. But an evaluation
starts with the outcomes that are kept and passes over their call sites, so each of them is found
again in what it leaves behind (`Analyzes.outcome?_of_some`), and what it records was open before
(`Analyzes.opens_records`). A method that is complete is not evaluated at all.

`serveAll_terminal` puts this together for whatever is asked of a session later.
-/

namespace CallFold

/-! ## Logs -/

/-- A log to which at most entries with a property are added. -/
def AppendsOnly {α : Type} (p : α → Prop) (log log' : List α) : Prop :=
  ∃ new, log' = log ++ new ∧ ∀ a ∈ new, p a

namespace AppendsOnly

variable {α : Type} {p q : α → Prop} {log log' log'' : List α}

theorem refl (p : α → Prop) (log : List α) : AppendsOnly p log log :=
  ⟨[], (List.append_nil log).symm, fun _ h => absurd h List.not_mem_nil⟩

theorem trans (h : AppendsOnly p log log') (h' : AppendsOnly p log' log'') :
    AppendsOnly p log log'' := by
  obtain ⟨new, rfl, hnew⟩ := h
  obtain ⟨new', rfl, hnew'⟩ := h'
  refine ⟨new ++ new', List.append_assoc _ _ _, fun a ha => ?_⟩
  rcases List.mem_append.mp ha with hmem | hmem
  · exact hnew a hmem
  · exact hnew' a hmem

/-- The order of what is added is of no account. -/
theorem reorder (h : AppendsOnly p log log') (hreordered : Session.ReorderedLog log log' log'') :
    AppendsOnly p log log'' := by
  obtain ⟨new, rfl, hnew⟩ := h
  obtain ⟨new', new'', heq, rfl, hperm⟩ := hreordered
  obtain rfl := List.append_cancel_left heq
  exact ⟨new'', rfl, fun a ha => hnew a (hperm.mem_iff.mp ha)⟩

theorem imp (h : AppendsOnly p log log') (hpq : ∀ a, p a → q a) : AppendsOnly q log log' := by
  obtain ⟨new, heq, hnew⟩ := h
  exact ⟨new, heq, fun a ha => hpq a (hnew a ha)⟩

end AppendsOnly

namespace Evaluator

/-- A call that is in the cache is passed over: its handler has no part in the evaluation. -/
theorem run_filter_of_contains (e : Evaluator) (calls : List RecognizedCall) {cache : OutcomeCache}
    {site : Nat} (h : cache.contains site = true) :
    e.run calls cache = e.run (calls.filter fun call => call.site ≠ site) cache := by
  induction calls generalizing cache with
  | nil => rfl
  | cons call calls ih =>
    by_cases hsite : call.site = site
    · rw [List.filter_cons_of_neg (by simpa using hsite), run, hsite, if_pos h]
      exact ih h
    · rw [List.filter_cons_of_pos (by simpa using hsite), run, run, ih h]
      by_cases hknown : cache.contains call.site = true
      · rw [if_pos hknown, if_pos hknown]
      · rw [if_neg hknown, if_neg hknown]
        cases hdecide : e.decide cache call with
        | error error => rfl
        | ok decision =>
          cases decision with
          | none => rfl
          | some r =>
            dsimp only
            rw [ih]
            obtain ⟨o, ho⟩ := OutcomeCache.contains_eq_true_iff.mp h
            exact OutcomeCache.contains_eq_true_iff.mpr
              ⟨o, OutcomeCache.within_insert (Bool.not_eq_true _ ▸ hknown) _ site o ho⟩

end Evaluator

namespace Session

variable {s s' t : Session} {metadata : Metadata} {key other : MethodKey} {site : Nat}
  {o : Outcome} {outcome : MethodPass} {allowed : Metadata → MethodKey → Prop}

/-! ## One analysis -/

/-- What is known of a call site stays known, whichever method is analysed. -/
theorem Analyzes.outcome?_of_some (h : Analyzes s metadata other outcome s')
    (ho : s.outcome? key site = some o) : s'.outcome? key site = some o := by
  cases h with
  | skipped _ => exact ho
  | failed _ _ => exact ho
  | analyzed _ _ hprepare htakes =>
    rw [outcome?_commit]
    split
    · next heq =>
      subst heq
      rw [outcome?_of_prepare hprepare] at ho
      exact htakes.within site o ho
    · exact ho

/-- Only call sites that were open are recorded. -/
theorem Analyzes.opens_records (h : Analyzes s metadata other outcome s') :
    AppendsOnly (fun r => s.outcome? r.method r.site = none) s.resolutions s'.resolutions := by
  cases h with
  | skipped _ => exact .refl _ _
  | failed _ _ => exact .refl _ _
  | analyzed _ _ hprepare htakes =>
    refine ⟨_, rfl, fun r hr => ?_⟩
    obtain ⟨call, hcall, rfl⟩ := List.mem_map.mp hr
    show s.outcome? other call.site = none
    rw [outcome?_of_prepare hprepare]
    exact htakes.get?_of_resolved hcall

/-- Only call sites that were open are tagged. -/
theorem Analyzes.opens_tags (h : Analyzes s metadata other outcome s') :
    AppendsOnly (fun tag => s.outcome? tag.method tag.site = none) s.tags s'.tags := by
  cases h with
  | skipped _ => exact .refl _ _
  | failed _ _ => exact .refl _ _
  | analyzed _ _ hprepare htakes =>
    refine ⟨_, rfl, fun tag htag => ?_⟩
    obtain ⟨call, hcall, rfl⟩ := List.mem_map.mp htag
    show s.outcome? other call.site = none
    rw [outcome?_of_prepare hprepare]
    exact htakes.get?_of_resolved (List.mem_filter.mp hcall).1

theorem analyzeMethod_of_isComplete (h : s.isComplete key = true) (metadata : Metadata) :
    s.analyzeMethod metadata key = (.skipped, s) := by
  rw [analyzeMethod_eq, h, Bool.or_true, if_pos rfl]

/-! ## The course of a session -/

/--
From `s` to `t` the outcome of a call site stays. The site is not recorded and not tagged again, and
when the calls of its method are evaluated next, this is as if the call were not there.
-/
structure Terminal (key : MethodKey) (site : Nat) (o : Outcome) (s t : Session) : Prop where
  outcome : t.outcome? key site = some o
  records : AppendsOnly (fun r => ¬ (r.method = key ∧ r.site = site)) s.resolutions t.resolutions
  tags : AppendsOnly (fun tag => ¬ (tag.method = key ∧ tag.site = site)) s.tags t.tags
  unasked : ∀ metadata state, t.states.get? key = some state →
    (t.evaluator metadata state.graph).run
        (t.evaluator metadata state.graph).recognizedCalls state.cache =
      (t.evaluator metadata state.graph).run
        ((t.evaluator metadata state.graph).recognizedCalls.filter fun call => call.site ≠ site)
        state.cache

theorem run_of_outcome? (h : s.outcome? key site = some o) (e : Evaluator) {state : MethodState}
    (hstate : s.states.get? key = some state) (calls : List RecognizedCall) :
    e.run calls state.cache = e.run (calls.filter fun call => call.site ≠ site) state.cache := by
  refine e.run_filter_of_contains calls (OutcomeCache.contains_eq_true_iff.mpr ⟨o, ?_⟩)
  simpa only [outcome?, cache?, hstate, Option.map_some, Option.bind_some] using h

theorem Evolves.terminal (h : Evolves allowed s t) (ho : s.outcome? key site = some o) :
    Terminal key site o s t := by
  have hlogs : t.outcome? key site = some o ∧
      AppendsOnly (fun r => ¬ (r.method = key ∧ r.site = site)) s.resolutions t.resolutions ∧
      AppendsOnly (fun tag => ¬ (tag.method = key ∧ tag.site = site)) s.tags t.tags := by
    induction h with
    | refl => exact ⟨ho, .refl _ _, .refl _ _⟩
    | begin _ ih => exact ih ho
    | @analyze _ u metadata other _ _ ih =>
      obtain ⟨hu, hrecords, htags⟩ := ih ho
      have hanalyzes := analyzes_analyzeMethod u metadata other
      -- an entry for this site would be for an open site
      refine ⟨hanalyzes.outcome?_of_some hu, hrecords.trans (hanalyzes.opens_records.imp ?_),
        htags.trans (hanalyzes.opens_tags.imp ?_)⟩
      · rintro r hopen ⟨rfl, rfl⟩
        rw [hu] at hopen
        cases hopen
      · rintro tag hopen ⟨rfl, rfl⟩
        rw [hu] at hopen
        cases hopen
    | reorder _ _ hreordered ih ihSince =>
      -- the entries before the common point stand, and the later ones are the same ones
      obtain ⟨ht, hrecords, htags⟩ := ih ho
      obtain ⟨hu, hrecords', htags'⟩ := ihSince ht
      refine ⟨((hreordered.methods key).outcome? site).trans hu, ?_, ?_⟩
      · exact hrecords.trans (hrecords'.reorder hreordered.records)
      · exact htags.trans (htags'.reorder hreordered.tags)
  exact ⟨hlogs.1, hlogs.2.1, hlogs.2.2,
    fun metadata state hstate => run_of_outcome? hlogs.1 _ hstate _⟩

theorem Evolves.isComplete (h : Evolves allowed s t) (hs : s.isComplete key = true) :
    t.isComplete key = true := by
  induction h with
  | refl => exact hs
  | begin _ ih => exact ih hs
  | @analyze _ u metadata other _ _ ih =>
    by_cases heq : key = other
    · rw [← heq, analyzeMethod_of_isComplete (ih hs)]
      exact ih hs
    · rw [((analyzes_analyzeMethod u metadata other).sameFor heq).isComplete]
      exact ih hs
  | reorder _ _ hreordered ih ihSince =>
    rw [(hreordered.methods key).isComplete]
    exact ihSince (ih hs)

theorem Reachable.recorded (hs : s.Reachable) : Recorded s := by
  obtain ⟨config, load, catalog, signatures, schedule, requests, rfl⟩ := hs
  exact (evolves_serveAll (sound_fresh config load catalog signatures schedule) requests).recorded
    (recorded_fresh config load catalog signatures schedule)

theorem Reachable.serveAll (hs : s.Reachable) (requests : List Request) :
    (serveAll requests s).Reachable := by
  obtain ⟨config, load, catalog, signatures, schedule, earlier, rfl⟩ := hs
  exact ⟨config, load, catalog, signatures, schedule, earlier ++ requests, List.foldl_append⟩

/-- In the books of a session a resolved call site is recorded once, with its outcome. -/
theorem Reachable.recorded_once (hs : s.Reachable) (ho : s.outcome? key site = some o) :
    s.resolutions.Records key site o ∧
      (s.resolutions.map fun r => (r.method, r.site)).count (key, site) = 1 := by
  have hrecords := (hs.recorded.entries key site o).mp ho
  refine ⟨hrecords, List.count_eq_one_of_mem hs.recorded.distinct ?_⟩
  obtain ⟨r, hr, rfl, rfl, -⟩ := hrecords
  exact List.mem_map_of_mem hr

/--
Whatever a session is asked for later, with whatever metadata, a resolved call site keeps its
outcome and its one record and is not evaluated again, and a complete method stays complete.
-/
theorem serveAll_terminal (hs : s.Reachable) (later : List Request) :
    (∀ key site o, s.outcome? key site = some o →
      Terminal key site o s (serveAll later s) ∧
        (serveAll later s).resolutions.Records key site o ∧
        ((serveAll later s).resolutions.map fun r => (r.method, r.site)).count (key, site) = 1) ∧
      ∀ key, s.isComplete key = true → (serveAll later s).isComplete key = true := by
  have hevolves := evolves_serveAll hs.sound later
  refine ⟨fun key site o ho => ?_, fun key hcomplete => hevolves.isComplete hcomplete⟩
  have hterminal := hevolves.terminal ho
  exact ⟨hterminal, (hs.serveAll later).recorded_once hterminal.outcome⟩

/-! ### A class that is missing at first -/

/-- Finds a class and makes nothing of it. -/
def findPlugin : MethodBody where
  name := "findPlugin"
  descriptor := ⟨[], none⟩
  flags := .static
  maxLocals := 0
  code := #[.ldc (.text "app.Plugin"), .invoke classForName, .pop, .ret false]

def findPluginKey : MethodKey := ⟨"app/Boot", "findPlugin", "()V"⟩

/-- A session after a pass over the method in which the class was not known yet. -/
def beforePlugin : Session :=
  serveAll [.pass (knowing []) [findPluginKey]]
    (fresh .sequential (.ofClasses [⟨"app/Boot", [findPlugin]⟩]) .reflection [] fun _ => [])

/--
The search for a class that is missing is resolved as a failure. It stays so and is recorded once,
also if passes are run when the class is known.
-/
theorem serveAll_terminal_findPlugin :
    beforePlugin.Reachable ∧
      beforePlugin.outcome? findPluginKey 1 = some (.failed (.classNotFound "app.Plugin")) ∧
      beforePlugin.isComplete findPluginKey = true ∧
      ∀ later, (serveAll (.untilStable (knowing ["app.Plugin"]) [findPluginKey] :: later)
          beforePlugin).outcome? findPluginKey 1 =
            some (.failed (.classNotFound "app.Plugin")) ∧
        ((serveAll (.untilStable (knowing ["app.Plugin"]) [findPluginKey] :: later)
          beforePlugin).resolutions.map fun r => (r.method, r.site)).count (findPluginKey, 1) = 1 ∧
        (serveAll (.untilStable (knowing ["app.Plugin"]) [findPluginKey] :: later)
          beforePlugin).isComplete findPluginKey = true := by
  have hreachable : beforePlugin.Reachable := ⟨_, _, _, _, _, _, rfl⟩
  have hfirst : (beforePlugin.outcome? findPluginKey 1, beforePlugin.isComplete findPluginKey) =
      (some (.failed (.classNotFound "app.Plugin")), true) := by cbv
  obtain ⟨houtcome, hcomplete⟩ := Prod.mk.inj hfirst
  refine ⟨hreachable, houtcome, hcomplete, fun later => ?_⟩
  obtain ⟨hsites, hmethods⟩ := serveAll_terminal hreachable
    (.untilStable (knowing ["app.Plugin"]) [findPluginKey] :: later)
  obtain ⟨hterminal, -, honce⟩ := hsites findPluginKey 1 _ houtcome
  exact ⟨hterminal.outcome, honce, hmethods findPluginKey hcomplete⟩

end Session

end CallFold
