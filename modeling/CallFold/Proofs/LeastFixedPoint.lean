import CallFold.Proofs.Monotonicity
import CallFold.Proofs.ReflectiveCalls
import CallFold.Proofs.Sessions
import Mathlib

/-!
# What the passes converge to

The calls of a method are resolved in the order of the instructions, in one pass or another, and
each with what is resolved so far: a chaotic iteration. Where handlers are monotone its result does
not depend on the order. It is the least cache in which every call has the outcome that its handler
finds with this cache (`Evaluator.Closed`), and it lies within every cache that agrees with what the
handlers resolve (`Evaluator.Respects`).

The reflective look-ups are monotone (`Evaluator.monotone_of_reflection`). So a session that
recognises them and comes to a pass that resolves nothing has found the least fixed point for each
of its methods (`Session.runUntilStable_least`).
-/

namespace CallFold

/-! ## Resolving calls in any order -/

namespace Evaluator

/-- What a handler resolves it resolves in the same way when more calls are resolved. -/
def Monotone (e : Evaluator) : Prop :=
  ∀ cache cache' call r, cache.Within cache' → call ∈ e.recognizedCalls →
    e.decide cache call = .ok (some r) → e.decide cache' call = .ok (some r)

/-- Caches that come about by resolving calls one at a time, in any order. -/
inductive Derives (e : Evaluator) : OutcomeCache → Prop where
  | empty : Derives e .empty
  | resolve {cache : OutcomeCache} {call : RecognizedCall} {r : Resolution} (h : Derives e cache)
      (hcall : call ∈ e.recognizedCalls) (hnew : cache.contains call.site = false)
      (hdecide : e.decide cache call = .ok (some r)) :
      Derives e (cache.insert call.site r.outcome).2

/-- No more call can be resolved. -/
def Saturated (e : Evaluator) (cache : OutcomeCache) : Prop :=
  ∀ call ∈ e.recognizedCalls, cache.contains call.site = false →
    ∀ r, e.decide cache call ≠ .ok (some r)

/-- With this cache, each handler declines a call that is not in it, or finds the outcome in it. -/
def Closed (e : Evaluator) (cache : OutcomeCache) : Prop :=
  ∀ call ∈ e.recognizedCalls,
    (e.decide cache call = .ok none ∧ cache.get? call.site = none) ∨
      ∃ r, e.decide cache call = .ok (some r) ∧ cache.get? call.site = some r.outcome

/-- Whatever a handler resolves with this cache is in the cache. -/
def Respects (e : Evaluator) (cache : OutcomeCache) : Prop :=
  ∀ call ∈ e.recognizedCalls, ∀ r, e.decide cache call = .ok (some r) →
    cache.get? call.site = some r.outcome

/-- The cache to which every way of resolving the calls leads. -/
structure LeastFixedPoint (e : Evaluator) (cache : OutcomeCache) : Prop where
  closed : e.Closed cache
  least : ∀ other, e.Respects other → cache.Within other
  unique : ∀ other, e.Derives other → e.Saturated other →
    ∀ site, other.get? site = cache.get? site

variable {e : Evaluator} {cache cache' last : OutcomeCache} {calls : List RecognizedCall}
  {d : Decisions}

theorem monotone_of_reflection (h : e.catalog = .reflection) : e.Monotone := by
  intro cache cache' call r hwithin hcall hdecide
  have hentry := get?_catalog_of_mem hcall
  rw [h] at hentry
  obtain ⟨c, -, hc⟩ := Catalog.exists_of_get?_reflection hentry
  have hbelow : (e.scope cache).Below (e.scope cache') :=
    ⟨rfl, rfl, fun _ h => h, Nat.le_refl _, hwithin⟩
  unfold decide at hdecide ⊢
  rw [hc] at hdecide ⊢
  split at hdecide
  · simp at hdecide
  · exact ReflectiveCall.handler_mono hbelow c hdecide

theorem Closed.respects (h : e.Closed cache) : e.Respects cache := by
  intro call hcall r hdecide
  rcases h call hcall with ⟨hnone, -⟩ | ⟨r', hr', hget⟩
  · rw [hdecide] at hnone
    simp at hnone
  · rw [hdecide] at hr'
    rwa [Option.some.inj (Except.ok.inj hr')]

/-- Evaluating calls in turn is a way to resolve them. -/
theorem Takes.derives (h : e.Takes cache calls last d) (hcalls : ∀ call ∈ calls,
    call ∈ e.recognizedCalls) (hcache : e.Derives cache) : e.Derives last := by
  induction h with
  | done => exact hcache
  | known _ _ ih => exact ih (List.forall_mem_of_forall_mem_cons hcalls) hcache
  | declined _ _ _ ih => exact ih (List.forall_mem_of_forall_mem_cons hcalls) hcache
  | resolved hnew hdecide _ ih =>
    exact ih (List.forall_mem_of_forall_mem_cons hcalls)
      (hcache.resolve (hcalls _ List.mem_cons_self) hnew hdecide)

namespace Derives

/-- What can be resolved is in every cache that agrees with what is resolved with it. -/
theorem within (h : e.Derives cache) (hmono : e.Monotone) (hcache' : e.Respects cache') :
    cache.Within cache' := by
  induction h with
  | empty => exact fun site o hget => by cases hget
  | resolve _ hcall hnew hdecide ih =>
    intro site o hget
    rcases (OutcomeCache.get?_insert_eq_some_iff hnew).mp hget with hold | ⟨rfl, rfl⟩
    · exact ih site o hold
    · exact hcache' _ hcall _ (hmono _ _ _ _ ih hcall hdecide)

/-- Every entry is what the handler of its call still finds. -/
theorem exists_call (h : e.Derives cache) (hmono : e.Monotone) {site : Nat} {o : Outcome}
    (hget : cache.get? site = some o) : ∃ call ∈ e.recognizedCalls, call.site = site ∧
      ∃ r, e.decide cache call = .ok (some r) ∧ r.outcome = o := by
  induction h with
  | empty => cases hget
  | resolve _ hcall hnew hdecide ih =>
    have hwithin := OutcomeCache.within_insert hnew
    rcases (OutcomeCache.get?_insert_eq_some_iff hnew).mp hget with hold | ⟨rfl, rfl⟩
    · obtain ⟨call', hcall', hsite, r, hr, hro⟩ := ih hold
      exact ⟨call', hcall', hsite, r, hmono _ _ _ _ (hwithin _) hcall' hr, hro⟩
    · exact ⟨_, hcall, rfl, _, hmono _ _ _ _ (hwithin _) hcall hdecide, rfl⟩

theorem decide_eq (h : e.Derives cache) (hmono : e.Monotone) {call : RecognizedCall}
    (hcall : call ∈ e.recognizedCalls) {o : Outcome} (hget : cache.get? call.site = some o) :
    ∃ r, e.decide cache call = .ok (some r) ∧ r.outcome = o := by
  obtain ⟨call', hcall', hsite, hr⟩ := h.exists_call hmono hget
  rwa [eq_of_site_eq hcall' hcall hsite] at hr

theorem closed (h : e.Derives cache) (hmono : e.Monotone) (hdeclines : ∀ call ∈ e.recognizedCalls,
    cache.contains call.site = false → e.decide cache call = .ok none) : e.Closed cache := by
  intro call hcall
  cases hget : cache.get? call.site with
  | none =>
    exact Or.inl ⟨hdeclines call hcall (OutcomeCache.contains_eq_false_iff.mpr hget), rfl⟩
  | some o =>
    obtain ⟨r, hr, rfl⟩ := h.decide_eq hmono hcall hget
    exact Or.inr ⟨r, hr, rfl⟩

theorem respects (h : e.Derives cache) (hmono : e.Monotone) (hsaturated : e.Saturated cache) :
    e.Respects cache := by
  intro call hcall r hdecide
  cases hget : cache.get? call.site with
  | none =>
    exact absurd hdecide (hsaturated call hcall (OutcomeCache.contains_eq_false_iff.mpr hget) r)
  | some o =>
    obtain ⟨r', hr', rfl⟩ := h.decide_eq hmono hcall hget
    rw [hdecide] at hr'
    rw [Option.some.inj (Except.ok.inj hr')]

/-- In whatever order calls are resolved, the result is the same once no more can be resolved. -/
theorem leastFixedPoint (h : e.Derives cache) (hmono : e.Monotone)
    (hdeclines : ∀ call ∈ e.recognizedCalls, cache.contains call.site = false →
      e.decide cache call = .ok none) : e.LeastFixedPoint cache := by
  have hclosed := h.closed hmono hdeclines
  refine ⟨hclosed, fun other => h.within hmono, fun other hother hsaturated site => ?_⟩
  have hwithin : other.Within cache := hother.within hmono hclosed.respects
  have hwithin' : cache.Within other := h.within hmono (hother.respects hmono hsaturated)
  cases hget : cache.get? site with
  | some o => exact hwithin' site o hget
  | none =>
    refine Option.eq_none_iff_forall_ne_some.mpr fun o hget' => ?_
    rw [hwithin site o hget'] at hget
    simp at hget

end Derives

end Evaluator

/-! ## Sessions -/

namespace Session

variable {s s' t u : Session} {metadata : Metadata} {key : MethodKey} {outcome : MethodPass}
  {methods keys : List MethodKey} {summary : PassSummary}

/--
What is kept of each method came about by resolving its calls, and if the method counts as complete,
all of them are resolved.
-/
structure Derived (metadata : Metadata) (s : Session) : Prop where
  derives : ∀ key state, s.states.get? key = some state →
    (s.evaluator metadata state.graph).Derives state.cache
  complete : ∀ key state, s.states.get? key = some state → state.complete = true →
    ∀ call ∈ (s.evaluator metadata state.graph).recognizedCalls,
      state.cache.contains call.site = true

theorem Derived.prepare (hs : s.Derived metadata) {store : CodeStore} {graph : FrameGraph}
    {cache : OutcomeCache} (h : s.prepare key = (store, .ok (graph, cache))) :
    (s.evaluator metadata graph).Derives cache := by
  rcases prepare_eq_ok h with ⟨state, hstate, rfl, rfl⟩ | ⟨-, rfl, -⟩
  · exact hs.derives key state hstate
  · exact .empty

theorem Analyzes.derived (h : Analyzes s metadata key outcome s') (hs : s.Derived metadata) :
    s'.Derived metadata := by
  cases h with
  | skipped _ => exact hs
  | failed _ _ => exact ⟨hs.derives, hs.complete⟩
  | @analyzed store graph cache last d _ _ hprepare htakes =>
    refine ⟨fun key' state hstate => ?_, fun key' state hstate hcomplete => ?_⟩
    · simp only [commit, Table.get?_insert] at hstate
      split at hstate
      · obtain rfl := Option.some.inj hstate
        exact htakes.derives (fun _ h => h) (hs.prepare hprepare)
      · exact hs.derives key' state hstate
    · simp only [commit, Table.get?_insert] at hstate
      split at hstate
      · obtain rfl := Option.some.inj hstate
        intro call hcall
        by_contra hleft
        have hnone : d.declined = [] := List.isEmpty_iff.mp hcomplete
        have hdeclined := htakes.mem_declined hcall (Bool.not_eq_true _ ▸ hleft)
        rw [hnone] at hdeclined
        simp at hdeclined
      · exact hs.complete key' state hstate hcomplete

theorem Reordered.derived {base : Session} (h : Reordered base s t) (hs : s.Derived metadata) :
    t.Derived metadata where
  derives key state hstate := by
    rw [(h.methods key).state] at hstate
    rw [h.settings.evaluator]
    exact hs.derives key state hstate
  complete key state hstate := by
    rw [(h.methods key).state] at hstate
    rw [h.settings.evaluator]
    exact hs.complete key state hstate

theorem Evolves.derived {allowed : Metadata → MethodKey → Prop} (h : Evolves allowed s t)
    (hallowed : ∀ m key, allowed m key → m = metadata) (hs : s.Derived metadata) :
    t.Derived metadata := by
  refine h.invariant hs (fun _ hu => ⟨hu.derives, hu.complete⟩) ?_
    fun _ _ _ hu hreordered => hreordered.derived hu
  intro u m key outcome u' hkey hu hanalyzes
  obtain rfl := hallowed m key hkey
  exact hanalyzes.derived hu

theorem derived_fresh (config : Config) (load : Loader) (catalog : Catalog)
    (signatures : List CallSignature) (schedule : Schedule) (metadata : Metadata) :
    (fresh config load catalog signatures schedule).Derived metadata where
  derives key state h := by cases h
  complete key state h := by cases h

/-! ### The turn of a method in a pass -/

theorem resolved_le_analyzeAll (metadata : Metadata) (keys : List MethodKey)
    (summary : PassSummary) (s : Session) :
    summary.resolved ≤ (analyzeAll metadata keys summary s).1.resolved := by
  induction keys generalizing summary s with
  | nil => exact Nat.le_refl _
  | cons key keys ih =>
    have hadd : ∀ outcome, summary.resolved ≤ (summary.add key outcome).resolved := by
      intro outcome
      cases outcome with
      | skipped | failed => exact Nat.le_refl _
      | analyzed n => exact Nat.le_add_right _ n
    exact Nat.le_trans (hadd _) (ih _ _)

/-- What a pass leaves of one of its methods is what the method had after a turn of its own. -/
theorem exists_turn (hu : u.Sound) (henabled : u.config.enabled = true)
    (h : u.runPass metadata methods = (summary, t)) (hkey : key ∈ methods) :
    ∃ mid outcome mid', Evolves (fun m key => m = metadata ∧ key ∈ methods) u mid ∧
      Analyzes mid metadata key outcome mid' ∧ SameFor key mid' t ∧
      ∀ n, outcome = .analyzed n → n ≤ summary.resolved := by
  obtain ⟨before, after, hsplit⟩ := List.append_of_mem (mem_distinctKeys_iff.mpr hkey)
  have hafter : key ∉ after := by
    have hnodup := nodup_distinctKeys methods
    rw [hsplit, List.nodup_append] at hnodup
    exact (List.nodup_cons.mp hnodup.2.1).1
  have hbefore : ∀ k ∈ before, k ∈ methods := fun k hk =>
    mem_distinctKeys_iff.mp (hsplit ▸ List.mem_append_left _ hk)
  have hmid : Evolves (fun m key => m = metadata ∧ key ∈ methods) u
      (analyzeAll metadata before ⟨u.passes + 1, 0, 0, 0, []⟩
        { u with passes := u.passes + 1 }).2 :=
    Evolves.refl.begin.analyzeAll (fun k hk => ⟨rfl, hbefore k hk⟩) _
  obtain ⟨hsummary, hreordered⟩ := runPass_reordered hu metadata methods
  have hend := hreordered.methods key
  rw [h] at hsummary hend
  simp only [passInTurn, henabled, if_true, hsplit, analyzeAll_append, analyzeAll_cons]
    at hsummary hend
  generalize analyzeAll metadata before _ _ = first at hsummary hend hmid
  refine ⟨first.2, _, _, hmid, analyzes_analyzeMethod first.2 metadata key, ?_, fun n hn => ?_⟩
  · have hevolves : Evolves (fun _ k => k ∈ after) (first.2.analyzeMethod metadata key).2
        (analyzeAll metadata after (first.1.add key (first.2.analyzeMethod metadata key).1)
          (first.2.analyzeMethod metadata key).2).2 := Evolves.refl.analyzeAll (fun _ hk => hk) _
    exact (hevolves.sameFor (Or.inr fun _ => hafter)).trans hend
  · rw [hsummary]
    refine Nat.le_trans ?_ (resolved_le_analyzeAll metadata after _ _)
    rw [hn]
    exact Nat.le_add_left n _

/-- A turn in which nothing is resolved leaves calls behind only if their handlers decline them. -/
theorem Analyzes.exists_declining (h : Analyzes s metadata key outcome s')
    (hs : s.Derived metadata) (hkept : s'.failure? key = none)
    (hnone : ∀ n, outcome = .analyzed n → n = 0) :
    ∃ state, s'.states.get? key = some state ∧
      ∀ call ∈ (s'.evaluator metadata state.graph).recognizedCalls,
        state.cache.contains call.site = false →
          (s'.evaluator metadata state.graph).decide state.cache call = .ok none := by
  cases h with
  | skipped hsettled =>
    rcases hsettled with hfailed | hcomplete
    · rw [Table.contains, show s.failures.get? key = none from hkept] at hfailed
      simp at hfailed
    · rw [isComplete, Option.any_eq_true] at hcomplete
      obtain ⟨state, hstate, hall⟩ := hcomplete
      refine ⟨state, hstate, fun call hcall hleft => ?_⟩
      rw [hs.complete key state hstate hall call hcall] at hleft
      simp at hleft
  | failed _ _ => simp [failure?, setAside] at hkept
  | @analyzed store graph cache last d _ _ _ htakes =>
    have hresolved : d.resolved = [] := List.eq_nil_of_length_eq_zero (hnone _ rfl)
    obtain ⟨rfl, hdeclines⟩ := htakes.declines_of_resolved_eq_nil hresolved
    exact ⟨_, Table.get?_insert_self _ _ _, hdeclines⟩

/--
A session that recognises the reflective look-ups and ends with a pass that resolved nothing keeps
the least fixed point of each of its methods that did not fail.
-/
theorem runUntilStable_least {config : Config} {load : Loader} {signatures : List CallSignature}
    {schedule : Schedule} {summaries : List PassSummary} (henabled : config.enabled = true)
    (hrun : (fresh config load .reflection signatures schedule).runUntilStable metadata methods =
      (summaries, s))
    (hlast : summaries.getLast? = some summary) (hstable : summary.resolved = 0)
    (hkey : key ∈ methods) (hkept : s.failure? key = none) :
    ∃ body graph cache, Loads load key body ∧ FrameGraph.build body = .ok graph ∧
      s.cache? key = some cache ∧
      ((fresh config load .reflection signatures schedule).evaluator metadata
        graph).LeastFixedPoint cache := by
  have hfresh := sound_fresh config load .reflection signatures schedule
  obtain ⟨u, hu, hpass⟩ := exists_last_pass hfresh hrun hlast
  have henabled' : u.config.enabled = true := by
    rw [hu.sameSettings.config]
    exact henabled
  obtain ⟨mid, outcome, mid', hmid, hturn, hsame, hresolved⟩ :=
    exists_turn (hu.sound hfresh) henabled' hpass hkey
  have hevolves := hu.trans hmid
  have hsettings := hevolves.sameSettings.trans hturn.sameSettings
  have hderived : mid.Derived metadata :=
    hevolves.derived (fun _ _ h => h.1)
      (derived_fresh config load .reflection signatures schedule metadata)
  have hsound := hturn.sound (hevolves.sound hfresh)
  obtain ⟨state, hstate, hdeclines⟩ := hturn.exists_declining hderived (hsame.failure ▸ hkept)
    fun n hn => Nat.le_zero.mp (hstable ▸ hresolved n hn)
  obtain ⟨body, hloads, hbuild⟩ := hsound.graph key state hstate
  rw [hsettings.load] at hloads
  have hderives := (hturn.derived hderived).derives key state hstate
  rw [hsettings.evaluator] at hdeclines hderives
  refine ⟨body, state.graph, state.cache, hloads, hbuild, ?_, ?_⟩
  · rw [cache?, hsame.state, hstate]
    rfl
  · exact hderives.leastFixedPoint (Evaluator.monotone_of_reflection rfl) hdeclines

/-! ### A call that depends on a later one -/

/-- Finds a class by name. -/
def classForName : MethodRef where
  kind := .static
  signature := ReflectiveCall.forName.signature
  descriptor := ⟨[.object "java/lang/String"], some (.object "java/lang/Class")⟩
  parsed := MethodDescriptor.parse_eq_ok_iff.mpr ⟨by decide, rfl⟩

/-- Finds a field of a class. -/
def getField : MethodRef where
  kind := .virtual
  signature := (ReflectiveCall.field false).signature
  descriptor := ⟨[.object "java/lang/String"], some (.object "java/lang/reflect/Field")⟩
  parsed := MethodDescriptor.parse_eq_ok_iff.mpr ⟨by decide, rfl⟩

/--
Finds a class, and then, in code that stands before, a field of this class and a field of its
parameter.
-/
def lookBack : MethodBody where
  name := "lookBack"
  descriptor := ⟨[.object "java/lang/Class"], none⟩
  flags := .static
  maxLocals := 2
  code := #[.goto 8, .load 1, .ldc (.text "name"), .invoke getField, .load 0, .ldc (.text "name"),
    .invoke getField, .ret false, .ldc (.text "app.Plugin"), .invoke classForName, .store 1,
    .goto 1]

def lookBackKey : MethodKey := ⟨"app/Boot", "lookBack", "(Ljava/lang/Class;)V"⟩

/-- What the next pass does with a method that is neither complete nor set aside. -/
def evaluateNext (s : Session) (metadata : Metadata) (key : MethodKey) : MethodPass × Session :=
  { s with passes := s.passes + 1 }.evaluateMethod metadata key

/-- The method has its turn, and the summary counts what was resolved in it. -/
theorem runPass_singleton {n : Nat} (h : (s.config.parallel, s.config.enabled,
      s.failures.contains key || s.isComplete key, (s.evaluateNext metadata key).1) =
        (false, true, false, .analyzed n)) :
    ∃ summary, s.runPass metadata [key] = (summary, (s.evaluateNext metadata key).2) ∧
      summary.resolved = n := by
  obtain ⟨hsequential, hrest⟩ := Prod.mk.inj h
  obtain ⟨henabled, hrest⟩ := Prod.mk.inj hrest
  obtain ⟨hopen, hanalyzed⟩ := Prod.mk.inj hrest
  have hturn : { s with passes := s.passes + 1 }.analyzeMethod metadata key =
      s.evaluateNext metadata key :=
    (analyzeMethod_eq _ metadata key).trans (if_neg (Bool.eq_false_iff.mp hopen))
  refine ⟨PassSummary.add ⟨s.passes + 1, 0, 0, 0, []⟩ key (.analyzed n), ?_, Nat.zero_add n⟩
  rw [runPass_of_sequential hsequential, passInTurn, if_pos henabled,
    show distinctKeys [key] = [key] from rfl, analyzeAll_cons, hturn, hanalyzed]
  rfl

/-- The session after some passes over the method. -/
def lookBackAfter : Nat → Session
  | 0 => fresh .sequential (.ofClasses [⟨"app/Boot", [lookBack]⟩]) .reflection [] fun _ => []
  | n + 1 => ((lookBackAfter n).evaluateNext (knowing ["app.Plugin"]) lookBackKey).2

theorem runPass_lookBackAfter (n resolved : Nat) (h : ((lookBackAfter n).config.parallel,
      (lookBackAfter n).config.enabled,
      (lookBackAfter n).failures.contains lookBackKey || (lookBackAfter n).isComplete lookBackKey,
      ((lookBackAfter n).evaluateNext (knowing ["app.Plugin"]) lookBackKey).1) =
        (false, true, false, .analyzed resolved)) :
    ∃ summary, (lookBackAfter n).runPass (knowing ["app.Plugin"]) [lookBackKey] =
      (summary, lookBackAfter (n + 1)) ∧ summary.resolved = resolved :=
  runPass_singleton h

/--
The class is found in the first pass and its field in the second. Nothing is ever known of the
parameter. What is kept after the third pass is the least fixed point.
-/
theorem runUntilStable_least_lookBack :
    ∃ summaries s, (lookBackAfter 0).runUntilStable (knowing ["app.Plugin"]) [lookBackKey] =
        (summaries, s) ∧ summaries.map PassSummary.resolved = [1, 1, 0] ∧
      s.outcome? lookBackKey 3 = some (.failed (.noSuchField "app.Plugin" "name")) ∧
      s.outcome? lookBackKey 6 = none ∧
      ∃ body graph cache, Loads (lookBackAfter 0).load lookBackKey body ∧
        FrameGraph.build body = .ok graph ∧ s.cache? lookBackKey = some cache ∧
        ((lookBackAfter 0).evaluator (knowing ["app.Plugin"]) graph).LeastFixedPoint cache := by
  obtain ⟨first, hfirst, hone⟩ := runPass_lookBackAfter 0 1 (by cbv)
  obtain ⟨second, hsecond, htwo⟩ := runPass_lookBackAfter 1 1 (by cbv)
  obtain ⟨third, hthird, hthree⟩ := runPass_lookBackAfter 2 0 (by cbv)
  have hrun : (lookBackAfter 0).runUntilStable (knowing ["app.Plugin"]) [lookBackKey] =
      ([first, second, third], lookBackAfter 3) := by
    rw [runUntilStable, show (lookBackAfter 0).config.maxPasses = 13 + 1 + 1 + 1 from rfl,
      runPasses_of_resolved hfirst (by simp [hone]), runPasses_of_resolved hsecond (by simp [htwo]),
      runPasses_of_stable hthird hthree]
  have hend : ((lookBackAfter 3).failure? lookBackKey, (lookBackAfter 3).outcome? lookBackKey 3,
      (lookBackAfter 3).outcome? lookBackKey 6) =
        (none, some (.failed (.noSuchField "app.Plugin" "name")), none) := by cbv
  obtain ⟨hkept, hrest⟩ := Prod.mk.inj hend
  obtain ⟨hfield, hopen⟩ := Prod.mk.inj hrest
  obtain ⟨body, graph, cache, hloads, hbuild, hcache, hleast⟩ :=
    runUntilStable_least rfl hrun rfl hthree List.mem_cons_self hkept
  exact ⟨[first, second, third], lookBackAfter 3, hrun, by simp [hone, htwo, hthree], hfield,
    hopen, body, graph, cache, hloads, hbuild, hcache, hleast⟩

end Session

end CallFold
