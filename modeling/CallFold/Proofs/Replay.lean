import CallFold.Proofs.ReflectiveCalls
import Mathlib

/-!
# Registrations replay to their outcomes

A resolved look-up is reported with a registration, by which the same look-up is permitted when the
program runs. To perform the look-up that a registration describes gives the outcome that was
reported with it (`Registration.replay`), the registration is of the kind that the name of the call
asks for (`Registration.callName`), and it describes the look-up by the constants that were inferred
for the arguments of the call (`Registration.InferredFrom`).

All this is shown of each handler, question by question (`ReflectiveCall.handler_resolved`), and
carried over to what an evaluation reports by `Evaluator.Takes.exists_resolution`.
-/

namespace CallFold

/-! ## What a registration describes -/

namespace Registration

/-- What comes out when the look-up is performed on a universe. -/
def replay (u : Universe) : Registration → Outcome
  | classLookup name =>
    match u.classForName name with
    | some handle => .resolved (.type handle)
    | none => .failed (.classNotFound name)
  | fieldLookup owner name declaredOnly =>
    match u.lookupField owner name declaredOnly with
    | .ok member => .resolved (.member member)
    | .error _ => .failed (.noSuchField owner.render name)
  | methodLookup owner name parameters declaredOnly =>
    match u.lookupMethod owner name parameters declaredOnly with
    | .ok member => .resolved (.member member)
    | .error _ => .failed (.noSuchMethod owner.render name (TypeHandle.renderList parameters))
  | constructorLookup owner parameters declaredOnly =>
    match u.lookupConstructor owner parameters declaredOnly with
    | .ok member => .resolved (.member member)
    | .error _ => .failed (.noSuchConstructor owner.render (TypeHandle.renderList parameters))
  | bulkQuery owner query => .resolved (.members (u.members owner query))

/-- The name of the call that performs the look-up. -/
def callName : Registration → String
  | classLookup _ => "forName"
  | fieldLookup _ _ false => "getField"
  | fieldLookup _ _ true => "getDeclaredField"
  | methodLookup _ _ _ false => "getMethod"
  | methodLookup _ _ _ true => "getDeclaredMethod"
  | constructorLookup _ _ false => "getConstructor"
  | constructorLookup _ _ true => "getDeclaredConstructor"
  | bulkQuery _ .fields => "getFields"
  | bulkQuery _ .declaredFields => "getDeclaredFields"
  | bulkQuery _ .methods => "getMethods"
  | bulkQuery _ .declaredMethods => "getDeclaredMethods"
  | bulkQuery _ .constructors => "getConstructors"
  | bulkQuery _ .declaredConstructors => "getDeclaredConstructors"

/-- An argument of a call is there, and it is inferred to be a constant. -/
def Argument {α : Type} (slot : Except Error IndexSet) (find : IndexSet → Option α) (a : α) :
    Prop :=
  ∃ set, slot = .ok set ∧ find set = some a

/-- The look-up is described by the constants that are inferred for the arguments of a call. -/
def InferredFrom (s : Scope) (context : CallContext) : Registration → Prop
  | classLookup name => Argument (context.parameter 0) (s.infer .text) name
  | fieldLookup owner name _ =>
    Argument context.receiver (s.infer .type) owner ∧
      Argument (context.parameter 0) (s.infer .text) name
  | methodLookup owner name parameters _ =>
    Argument context.receiver (s.infer .type) owner ∧
      Argument (context.parameter 0) (s.infer .text) name ∧
      Argument (context.parameter 1) (s.inferArray .type · context.site) parameters
  | constructorLookup owner parameters _ =>
    Argument context.receiver (s.infer .type) owner ∧
      Argument (context.parameter 0) (s.inferArray .type · context.site) parameters
  | bulkQuery owner _ => Argument context.receiver (s.infer .type) owner

end Registration

/-! ## Performing a look-up -/

namespace ReflectiveCall

/-- A look-up on a universe fails in one way only. -/
theorem memberOutcome_foundOr (failure : LookupFailure) (found : Option Member) :
    memberOutcome (Universe.foundOr failure found) =
      match Universe.foundOr failure found with
      | .ok member => .resolved (.member member)
      | .error _ => .failed failure := by
  cases found <;> rfl

/-- No handle for look-ups is ever known. -/
theorem infer_lookupHandle (s : Scope) (set : IndexSet) : s.infer .lookupHandle set = none := by
  have htrace : ∀ hops set, s.trace .lookupHandle hops set = none := by
    intro hops
    induction hops with
    | zero => exact fun _ => rfl
    | succ hops ih =>
      intro set
      rw [Scope.trace]
      split
      · rfl
      · split
        · rfl
        · split
          · exact ih _
          · rfl
        · split
          · exact ih _
          · rfl
        · split <;> rfl
        · rfl
  exact htrace _ set

variable {s : Scope} {context : CallContext} {r : Resolution} {u : Universe}

/-- A look-up is resolved only if the answer to each question is known. -/
theorem exists_of_ask {α : Type} {slot : Except Error IndexSet} {find : IndexSet → Option α}
    {rest : α → Except Error (Option Resolution)} (h : ask slot find rest = .ok (some r)) :
    ∃ a, Registration.Argument slot find a ∧ rest a = .ok (some r) := by
  cases slot with
  | error error => cases h
  | ok set =>
    cases hfind : find set with
    | none => simp [ask, bind, Except.bind, hfind, pure, Except.pure] at h
    | some a =>
      refine ⟨a, ⟨set, rfl, hfind⟩, ?_⟩
      simpa [ask, bind, Except.bind, hfind] using h

theorem not_argument_lookupHandle {slot : Except Error IndexSet} {handle : LookupHandle} :
    ¬ Registration.Argument slot (s.infer .lookupHandle) handle := by
  rintro ⟨set, -, hinfer⟩
  rw [infer_lookupHandle] at hinfer
  cases hinfer

/-- The resolution of a look-up: what it is for, where it comes from, and what it replays to. -/
structure Resolves (c : ReflectiveCall) (u : Universe) (s : Scope) (context : CallContext)
    (r : Resolution) : Prop where
  reflection : c.isHandleLookup = false
  callName : c.name = r.registration.callName
  inferred : r.registration.InferredFrom s context
  replay : r.registration.replay u = r.outcome

theorem handler_resolved (c : ReflectiveCall) (hmetadata : s.metadata = u.metadata)
    (h : c.handler s context = .ok (some r)) : c.Resolves u s context r := by
  cases c with
  | forName =>
    obtain ⟨name, hname, h⟩ := exists_of_ask h
    cases h
    rw [hmetadata]
    exact ⟨rfl, rfl, hname, rfl⟩
  | forNameInitialize =>
    obtain ⟨name, hname, h⟩ := exists_of_ask h
    obtain ⟨_, -, h⟩ := exists_of_ask h
    cases h
    rw [hmetadata]
    exact ⟨rfl, rfl, hname, rfl⟩
  | field declaredOnly =>
    obtain ⟨owner, howner, h⟩ := exists_of_ask h
    obtain ⟨name, hname, h⟩ := exists_of_ask h
    cases h
    rw [hmetadata]
    exact ⟨rfl, by cases declaredOnly <;> rfl, ⟨howner, hname⟩, (memberOutcome_foundOr _ _).symm⟩
  | method declaredOnly =>
    obtain ⟨owner, howner, h⟩ := exists_of_ask h
    obtain ⟨name, hname, h⟩ := exists_of_ask h
    obtain ⟨parameters, hparameters, h⟩ := exists_of_ask h
    cases h
    rw [hmetadata]
    exact ⟨rfl, by cases declaredOnly <;> rfl, ⟨howner, hname, hparameters⟩,
      (memberOutcome_foundOr _ _).symm⟩
  | constructor declaredOnly =>
    obtain ⟨owner, howner, h⟩ := exists_of_ask h
    obtain ⟨parameters, hparameters, h⟩ := exists_of_ask h
    cases h
    rw [hmetadata]
    exact ⟨rfl, by cases declaredOnly <;> rfl, ⟨howner, hparameters⟩,
      (memberOutcome_foundOr _ _).symm⟩
  | bulk query =>
    obtain ⟨owner, howner, h⟩ := exists_of_ask h
    cases h
    rw [hmetadata]
    exact ⟨rfl, by cases query <;> rfl, howner, rfl⟩
  | findStatic | findVirtual | findConstructor =>
    obtain ⟨handle, hhandle, -⟩ := exists_of_ask h
    exact absurd hhandle not_argument_lookupHandle

end ReflectiveCall

namespace Evaluator

/--
Each call that an evaluation with the reflective look-ups resolves is registered as the look-up that
its signature names, with the constants inferred for its arguments when it was resolved. To perform
this look-up on the same universe gives the outcome of the call.
-/
theorem resolved_replays {g : FrameGraph} {u : Universe} {safeCalls : SafeCalls}
    {maxTraceDepth : Nat} {cache last : OutcomeCache} {report : MethodReport}
    (h : evaluate ⟨g, u.metadata, .reflection, safeCalls, maxTraceDepth⟩ cache =
      (last, .ok report)) {r : ResolvedCall} (hr : r ∈ report.resolved) :
    r.registration.replay u = r.outcome ∧
    r.signature.owner = "java/lang/Class" ∧ r.signature.name = r.registration.callName ∧
    ∃ callee frame context, g.instruction? r.site = some (.invoke callee) ∧
      callee.signature = r.signature ∧ g.frame? r.site = some frame ∧
      CallContext.make r.site callee frame = .ok context ∧
      r.registration.InferredFrom ⟨g, u.metadata, safeCalls, maxTraceDepth,
        cache.extend (report.resolved.filter (·.site < r.site))⟩ context := by
  obtain ⟨d, htakes, rfl⟩ := takes_of_evaluate h
  obtain ⟨call, hcall, resolution, rfl, hdecide⟩ :=
    htakes.exists_resolution (sites_ascending _) hr
  obtain ⟨-, hi, hentry, hframe⟩ := recognize?_eq_some_iff.mp (mem_recognizedCalls_iff.mp hcall)
  obtain ⟨c, hsignature, hc⟩ := Catalog.exists_of_get?_reflection hentry
  unfold decide at hdecide
  split at hdecide
  · cases hdecide
  · next context hmake =>
    rw [hc] at hdecide
    obtain ⟨hreflection, hname, hinferred, hreplay⟩ :=
      ReflectiveCall.handler_resolved c rfl hdecide
    refine ⟨hreplay, ?_, ?_, call.callee, call.frame, context, hi, rfl, hframe, hmake, hinferred⟩
    · show call.callee.signature.owner = _
      rw [← hsignature]
      exact if_neg (by simp [hreflection])
    · show call.callee.signature.name = _
      rw [← hsignature]
      exact hname

/-- A universe with one class, which has a public method and a private one. -/
def pluginUniverse : Universe :=
  .add .empty ⟨"app.Plugin", .publicOnly, none, [], [],
    [⟨"run", ⟨[], .primitive .void⟩, .publicOnly⟩,
      ⟨"stop", ⟨[], .primitive .void⟩, ⟨0x0002⟩⟩], []⟩

/-- Looks a class up, and then its method `stop` among the public ones. -/
def findStop : MethodBody where
  name := "findStop"
  descriptor := ⟨[], none⟩
  flags := .static
  maxLocals := 1
  code := #[.ldc (.text "app.Plugin"), .invoke (called .static .forName), .store 0, .load 0,
    .ldc (.text "stop"), .intConst 0, .newArray (.object "java/lang/Class"),
    .invoke (called .virtual (.method false)), .pop, .ret false]

/-- The look-up of the class is resolved already. -/
def classKnown : OutcomeCache :=
  (OutcomeCache.empty.insert 1 (.resolved (.type (.named "app.Plugin")))).2

/-- The evaluation of `findStop` with the class known. -/
def evaluateFindStop (g : FrameGraph) : OutcomeCache × Except Error MethodReport :=
  evaluate ⟨g, pluginUniverse.metadata, .reflection, .empty, 64⟩ classKnown

/--
The method `stop` is not public, so its look-up fails. The failure is registered as a look-up among
the public methods of the class, and this look-up replays to the same failure.
-/
theorem resolved_replays_findStop : ∃ g last report r,
    FrameGraph.build findStop = .ok g ∧ evaluateFindStop g = (last, .ok report) ∧
      r ∈ report.resolved ∧
      r.outcome = .failed (.noSuchMethod "app.Plugin" "stop" "") ∧
      r.registration = .methodLookup (.named "app.Plugin") "stop" [] false ∧
      r.registration.replay pluginUniverse = r.outcome := by
  obtain ⟨g, hbuild, hread⟩ := FrameGraph.exists_of_build_map (m := findStop)
    (show (FrameGraph.build findStop).toOption.map (fun g =>
      ((evaluateFindStop g).2.toOption.bind fun report => report.resolved[0]?).map
        fun r => (r.outcome, r.registration)) =
      some (some (.failed (.noSuchMethod "app.Plugin" "stop" ""),
        .methodLookup (.named "app.Plugin") "stop" [] false)) by cbv)
  rcases hresult : evaluateFindStop g with ⟨last, error | report⟩
  · rw [hresult] at hread
    cases hread
  · rw [hresult] at hread
    obtain ⟨r, hget, hr⟩ := Option.map_eq_some_iff.mp hread
    obtain ⟨houtcome, hregistration⟩ := Prod.mk.inj hr
    have hmem : r ∈ report.resolved := List.mem_of_getElem? hget
    exact ⟨g, last, report, r, hbuild, hresult, hmem, houtcome, hregistration,
      (resolved_replays hresult hmem).1⟩

end Evaluator

end CallFold
