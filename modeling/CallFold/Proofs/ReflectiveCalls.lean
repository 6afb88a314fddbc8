import CallFold.Proofs.Decisions
import CallFold.Proofs.RoundTrip
import CallFold.Reflection
import CallFold.Universe.Lookup
import Mathlib

/-!
# Reflective calls and their shapes

The reflective look-ups are recognised by signature, and nothing else is. The descriptor of each
signature declares the parameters for which the handler asks (`ReflectiveCall.parse_descriptor`), so
a handler can fail to get an argument in one way only: it asks for the receiver of a call that has
none (`ReflectiveCall.handler_static`, `ReflectiveCall.handler_eq_ok`).

The frames of a method hold the arguments of every call. So an evaluation is refused exactly if a
look-up that needs a receiver is called as a static method (`Evaluator.evaluate_refused_iff`).
-/

namespace CallFold

/-! ## The catalog of reflective look-ups -/

namespace Catalog

theorem get?_register (c : Catalog) (signature signature' : CallSignature) (handler : Handler)
    (taggable : Bool) : (c.register signature handler taggable).get? signature' =
      if signature' = signature then some ⟨handler, taggable⟩ else c.get? signature' :=
  Table.get?_insert c.table signature signature' _

/-- The reflective look-ups are recognised, and nothing else is. -/
theorem exists_of_get?_reflection {signature : CallSignature} {entry : CatalogEntry}
    (h : Catalog.reflection.get? signature = some entry) :
    ∃ c : ReflectiveCall, c.signature = signature ∧ entry = ⟨c.handler, !c.isHandleLookup⟩ := by
  have hfold : ∀ (calls : List ReflectiveCall) (catalog : Catalog),
      (calls.foldl (fun catalog call =>
        catalog.register call.signature call.handler !call.isHandleLookup) catalog).get?
          signature = some entry →
      catalog.get? signature = some entry ∨
        ∃ c : ReflectiveCall, c.signature = signature ∧ entry = ⟨c.handler, !c.isHandleLookup⟩ := by
    intro calls
    induction calls with
    | nil => exact fun catalog h => Or.inl h
    | cons c calls ih =>
      intro catalog h
      rcases ih _ h with hregistered | hfound
      · rw [get?_register] at hregistered
        split at hregistered
        · next heq => exact Or.inr ⟨c, heq.symm, (Option.some.inj hregistered).symm⟩
        · exact Or.inl hregistered
      · exact Or.inr hfound
  rcases hfold _ _ h with hempty | hfound
  · cases hempty
  · exact hfound

end Catalog

/-! ## Shapes -/

namespace ReflectiveCall

/-- The element type of the array that a bulk query returns. -/
def bulkElement : MemberQuery → Descriptor
  | .fields | .declaredFields => .object "java/lang/reflect/Field"
  | .methods | .declaredMethods => .object "java/lang/reflect/Method"
  | .constructors | .declaredConstructors => .object "java/lang/reflect/Constructor"

/-- The parameters and the result of the called method. -/
def shape : ReflectiveCall → MethodDescriptor
  | forName => ⟨[.object "java/lang/String"], some (.object "java/lang/Class")⟩
  | forNameInitialize =>
    ⟨[.object "java/lang/String", .primitive .boolean, .object "java/lang/ClassLoader"],
      some (.object "java/lang/Class")⟩
  | field _ => ⟨[.object "java/lang/String"], some (.object "java/lang/reflect/Field")⟩
  | method _ =>
    ⟨[.object "java/lang/String", .array (.object "java/lang/Class")],
      some (.object "java/lang/reflect/Method")⟩
  | constructor _ =>
    ⟨[.array (.object "java/lang/Class")], some (.object "java/lang/reflect/Constructor")⟩
  | bulk query => ⟨[], some (.array (bulkElement query))⟩
  | findStatic | findVirtual =>
    ⟨[.object "java/lang/Class", .object "java/lang/String",
      .object "java/lang/invoke/MethodType"], some (.object "java/lang/invoke/MethodHandle")⟩
  | findConstructor =>
    ⟨[.object "java/lang/Class", .object "java/lang/invoke/MethodType"],
      some (.object "java/lang/invoke/MethodHandle")⟩

theorem wellFormed_shape (c : ReflectiveCall) : c.shape.WellFormed := by
  cases c with
  | field declaredOnly | method declaredOnly | constructor declaredOnly =>
    cases declaredOnly <;> decide
  | bulk query => cases query <;> decide
  | _ => decide

theorem render_shape (c : ReflectiveCall) : c.shape.render = c.descriptor := by
  cases c with
  | bulk query => cases query <;> rfl
  | _ => rfl

/-- The descriptor of each look-up is read as its shape. -/
theorem parse_descriptor (c : ReflectiveCall) : MethodDescriptor.parse c.descriptor = .ok c.shape :=
  MethodDescriptor.parse_eq_ok_iff.mpr ⟨c.wellFormed_shape, c.render_shape⟩

/-- A reference to a look-up has the look-up's parameters and result. -/
theorem descriptor_eq_shape {c : ReflectiveCall} {m : MethodRef}
    (hsignature : m.signature = c.signature) : m.descriptor = c.shape := by
  have hparse : MethodDescriptor.parse c.descriptor = .ok m.descriptor := by
    rw [← m.parsed, hsignature]
    rfl
  exact Except.ok.inj (hparse.symm.trans c.parse_descriptor)

/-! ## What a handler asks for -/

variable {slot : Except Error IndexSet} {α : Type} {find : IndexSet → Option α}
  {rest : α → Except Error (Option Resolution)} {scope : Scope} {context : CallContext}

/-- A question that has an answer or none is no reason to refuse a call. -/
theorem ask_eq_ok (hslot : ∃ set, slot = .ok set) (hrest : ∀ a, ∃ decision, rest a = .ok decision) :
    ∃ decision, ask slot find rest = .ok decision := by
  obtain ⟨set, rfl⟩ := hslot
  cases hfind : find set with
  | none => exact ⟨none, by simp [ask, bind, Except.bind, hfind, pure, Except.pure]⟩
  | some a =>
    obtain ⟨decision, hdecision⟩ := hrest a
    exact ⟨decision, by simp [ask, bind, Except.bind, hfind, hdecision]⟩

theorem ask_error (error : Error) : ask (.error error) find rest = .error error := rfl

/-- Whether a look-up is performed on an object. -/
def needsReceiver : ReflectiveCall → Bool
  | forName | forNameInitialize => false
  | _ => true

/-- The signatures of look-ups that are performed on no object. -/
theorem needsReceiver_eq_true_iff (c : ReflectiveCall) : c.needsReceiver = true ↔
    c.signature ≠ forName.signature ∧ c.signature ≠ forNameInitialize.signature := by
  have hname : c.needsReceiver = true → c.name ≠ "forName" := by
    cases c with
    | forName | forNameInitialize => simp [needsReceiver]
    | field declaredOnly | method declaredOnly | constructor declaredOnly =>
      cases declaredOnly <;> simp [name]
    | bulk query => cases query <;> simp [name, MemberQuery.name]
    | findStatic | findVirtual | findConstructor => simp [name]
  constructor
  · intro h
    exact ⟨fun heq => hname h (congrArg CallSignature.name heq),
      fun heq => hname h (congrArg CallSignature.name heq)⟩
  · rintro ⟨hforName, hinitialize⟩
    cases c with
    | forName => exact absurd rfl hforName
    | forNameInitialize => exact absurd rfl hinitialize
    | _ => rfl

end ReflectiveCall

namespace CallContext

variable {site : Nat} {callee : MethodRef} {frame : Frame} {context : CallContext} {index : Nat}

theorem make_eq_ok (h : callee.argumentSlots ≤ frame.depth) :
    ∃ context, make site callee frame = .ok context ∧ context.site = site ∧
      context.callee = callee :=
  ⟨_, dif_pos h, rfl, rfl⟩

theorem receiver_eq_ok (h : context.callee.kind.hasReceiver = true) :
    ∃ set, context.arguments.head? = some set ∧ context.receiver = .ok set :=
  ⟨_, List.head?_eq_some_head (arguments_ne_nil h), dif_pos h⟩

theorem receiver_eq_error (h : context.callee.kind.hasReceiver = false) :
    context.receiver = .error (.call (.noReceiver context.callee.signature context.site)) :=
  dif_neg (Bool.eq_false_iff.mp h)

/-- Every declared parameter is among the arguments. -/
theorem parameter_eq_ok (h : index < context.callee.parameterCount) :
    ∃ set, context.parameter index = .ok set := by
  have hlt : index + context.callee.kind.hasReceiver.toNat < context.arguments.length := by
    rw [context.length_arguments, MethodRef.argumentSlots]
    omega
  exact ⟨context.arguments[index + context.callee.kind.hasReceiver.toNat], by
    rw [parameter, List.getElem?_eq_getElem hlt]⟩

end CallContext

namespace ReflectiveCall

variable {scope : Scope} {context : CallContext}

/-- Without a receiver, a look-up that needs one is refused. -/
theorem handler_static {c : ReflectiveCall} (hneeds : c.needsReceiver = true)
    (hstatic : context.callee.kind.hasReceiver = false) : c.handler scope context =
      .error (.call (.noReceiver context.callee.signature context.site)) := by
  cases c with
  | forName | forNameInitialize => cases hneeds
  | _ =>
    unfold handler
    dsimp only
    rw [CallContext.receiver_eq_error hstatic, ask_error]

/-- With the receiver that it needs, a look-up of the right shape is resolved or declined. -/
theorem handler_eq_ok {c : ReflectiveCall} (hshape : context.callee.descriptor = c.shape)
    (hneeds : c.needsReceiver = true → context.callee.kind.hasReceiver = true) :
    ∃ decision, c.handler scope context = .ok decision := by
  have hparameter : ∀ index, index < c.shape.parameters.length →
      ∃ set, context.parameter index = .ok set := by
    intro index hlt
    refine CallContext.parameter_eq_ok ?_
    rw [MethodRef.parameterCount, hshape]
    exact hlt
  have hreceiver : c.needsReceiver = true → ∃ set, context.receiver = .ok set := by
    intro h
    obtain ⟨set, -, hset⟩ := CallContext.receiver_eq_ok (hneeds h)
    exact ⟨set, hset⟩
  have hdone : ∀ r : Resolution, ∃ decision : Option Resolution,
      (.ok (some r) : Except Error (Option Resolution)) = .ok decision := fun r => ⟨some r, rfl⟩
  cases c with
  | forName => exact ask_eq_ok (hparameter 0 (by decide)) fun _ => hdone _
  | forNameInitialize =>
    exact ask_eq_ok (hparameter 0 (by decide)) fun _ =>
      ask_eq_ok (hparameter 1 (by decide)) fun _ => hdone _
  | field _ =>
    exact ask_eq_ok (hreceiver rfl) fun _ =>
      ask_eq_ok (hparameter 0 Nat.one_pos) fun _ => hdone _
  | method _ =>
    exact ask_eq_ok (hreceiver rfl) fun _ => ask_eq_ok (hparameter 0 Nat.two_pos) fun _ =>
      ask_eq_ok (hparameter 1 Nat.one_lt_two) fun _ => hdone _
  | constructor _ =>
    exact ask_eq_ok (hreceiver rfl) fun _ =>
      ask_eq_ok (hparameter 0 Nat.one_pos) fun _ => hdone _
  | bulk _ => exact ask_eq_ok (hreceiver rfl) fun _ => hdone _
  | findStatic | findVirtual =>
    exact ask_eq_ok (hreceiver rfl) fun _ => ask_eq_ok (hparameter 0 (by decide)) fun _ =>
      ask_eq_ok (hparameter 1 (by decide)) fun _ =>
        ask_eq_ok (hparameter 2 (by decide)) fun _ => hdone _
  | findConstructor =>
    exact ask_eq_ok (hreceiver rfl) fun _ => ask_eq_ok (hparameter 0 (by decide)) fun _ =>
      ask_eq_ok (hparameter 1 (by decide)) fun _ => hdone _

/-- A look-up of the right shape asks for no parameter that is not declared. -/
theorem handler_ne_noParameter {c : ReflectiveCall}
    (hshape : context.callee.descriptor = c.shape) (index : Nat) : c.handler scope context ≠
      .error (.call (.noParameter context.callee.signature context.site index)) := by
  intro herror
  by_cases hserved : c.needsReceiver = true → context.callee.kind.hasReceiver = true
  · obtain ⟨decision, hok⟩ : ∃ decision, c.handler scope context = .ok decision :=
      handler_eq_ok hshape hserved
    rw [herror] at hok
    cases hok
  · rw [Classical.not_imp, Bool.not_eq_true] at hserved
    rw [handler_static hserved.1 hserved.2] at herror
    cases herror

end ReflectiveCall

/-! ## Evaluations that are refused -/

theorem InvokeKind.eq_static_iff {kind : InvokeKind} :
    kind = .static ↔ kind.hasReceiver = false := by
  cases kind <;> simp [hasReceiver]

/-- The frame of a reachable call holds its arguments. -/
theorem FrameGraph.Solved.exists_context {g : FrameGraph} (hg : g.Solved) {site : Nat}
    {callee : MethodRef} {frame : Frame} (hi : g.instruction? site = some (.invoke callee))
    (hframe : g.frame? site = some frame) : ∃ context,
      CallContext.make site callee frame = .ok context ∧ context.site = site ∧
        context.callee = callee :=
  CallContext.make_eq_ok (hg.accepts hframe hi).depth

namespace Evaluator

variable {e : Evaluator} {cache : OutcomeCache} {call : RecognizedCall}

/-- A recognised call of a method is decided by the handler of a reflective look-up. -/
theorem exists_handler (hg : e.graph.Solved) (hcatalog : e.catalog = .reflection)
    (hcall : e.recognize? call.site = some call) :
    ∃ c : ReflectiveCall, ∃ context : CallContext, call.callee.signature = c.signature ∧
      CallContext.make call.site call.callee call.frame = .ok context ∧
      context.site = call.site ∧ context.callee = call.callee ∧
      ∀ cache, e.decide cache call = c.handler (e.scope cache) context := by
  obtain ⟨-, hi, hentry, hframe⟩ := recognize?_eq_some_iff.mp hcall
  rw [hcatalog] at hentry
  obtain ⟨c, hsignature, hc⟩ := Catalog.exists_of_get?_reflection hentry
  obtain ⟨context, hmake, hsite, hcallee⟩ := hg.exists_context hi hframe
  refine ⟨c, context, hsignature.symm, hmake, hsite, hcallee, fun cache => ?_⟩
  simp only [decide, hmake, hc]

/-- Whether a reflective look-up is refused does not depend on what is resolved. -/
theorem decide_error_iff (hg : e.graph.Solved) (hcatalog : e.catalog = .reflection)
    (hcall : e.recognize? call.site = some call) :
    (∃ error, e.decide cache call = .error error) ↔ call.callee.kind = .static ∧
      call.callee.signature ≠ ReflectiveCall.forName.signature ∧
      call.callee.signature ≠ ReflectiveCall.forNameInitialize.signature := by
  obtain ⟨c, context, hsignature, -, -, hcallee, hdecide⟩ := exists_handler hg hcatalog hcall
  rw [hdecide, hsignature, ← c.needsReceiver_eq_true_iff, InvokeKind.eq_static_iff]
  constructor
  · rintro ⟨error, herror⟩
    by_contra hserved
    have hshape : context.callee.descriptor = c.shape := by
      rw [hcallee]
      exact ReflectiveCall.descriptor_eq_shape hsignature
    have hneeds : c.needsReceiver = true → context.callee.kind.hasReceiver = true := by
      intro hneeds
      by_contra hreceiver
      rw [Bool.not_eq_true, hcallee] at hreceiver
      exact hserved ⟨hreceiver, hneeds⟩
    obtain ⟨decision, hok⟩ := ReflectiveCall.handler_eq_ok hshape hneeds
    rw [herror] at hok
    cases hok
  · rintro ⟨hstatic, hneeds⟩
    exact ⟨_, ReflectiveCall.handler_static hneeds (hcallee ▸ hstatic)⟩

/-- An evaluation is refused exactly if an open call would be refused at any time. -/
theorem evaluate_error_iff {p : RecognizedCall → Prop}
    (h : ∀ call ∈ e.recognizedCalls, ∀ cache,
      (∃ error, e.decide cache call = .error error) ↔ p call) :
    (∃ last error, e.evaluate cache = (last, .error error)) ↔
      ∃ call ∈ e.recognizedCalls, cache.contains call.site = false ∧ p call := by
  constructor
  · rintro ⟨last, error, herror⟩
    obtain ⟨before, call, after, d, hsplit, -, hopen, hdecide⟩ := exists_of_evaluate_eq_error herror
    have hcall : call ∈ e.recognizedCalls := by simp [hsplit]
    exact ⟨call, hcall, hopen, (h call hcall last).mp ⟨error, hdecide⟩⟩
  · rintro ⟨call, hcall, hopen, hp⟩
    rcases hresult : e.evaluate cache with ⟨last, error | report⟩
    · exact ⟨last, error, rfl⟩
    · exfalso
      obtain ⟨d, htakes, -⟩ := takes_of_evaluate hresult
      obtain ⟨error, herror⟩ := (h call hcall _).mpr hp
      rcases htakes.decided e.sites_ascending hcall hopen with ⟨-, hdecide⟩ | ⟨r, -, hdecide⟩
      · rw [herror] at hdecide
        cases hdecide
      · rw [herror] at hdecide
        cases hdecide

/--
The evaluation of a method with the reflective look-ups is refused exactly if the method can reach
an open call of a look-up that needs a receiver, made as a static call. Every call has its arguments
in its frame, a call with a receiver has it in front of them, and no handler asks for a parameter
that is not declared.
-/
theorem evaluate_refused_iff {m : MethodBody} {g : FrameGraph} (hbuild : FrameGraph.build m = .ok g)
    (metadata : Metadata) (safeCalls : SafeCalls) (maxTraceDepth : Nat) (cache : OutcomeCache) :
    ((∃ last error, evaluate ⟨g, metadata, .reflection, safeCalls, maxTraceDepth⟩ cache =
        (last, .error error)) ↔
      ∃ site callee, g.instruction? site = some (.invoke callee) ∧ g.isReachable site = true ∧
        callee.kind = .static ∧ cache.contains site = false ∧
        Catalog.reflection.contains callee.signature = true ∧
        callee.signature ≠ ReflectiveCall.forName.signature ∧
        callee.signature ≠ ReflectiveCall.forNameInitialize.signature) ∧
    ∀ site callee frame, g.instruction? site = some (.invoke callee) → g.frame? site = some frame →
      ∃ context, CallContext.make site callee frame = .ok context ∧
        (callee.kind.hasReceiver = true →
          ∃ set, context.arguments.head? = some set ∧ context.receiver = .ok set) ∧
        ∀ entry, Catalog.reflection.get? callee.signature = some entry → ∀ scope index,
          entry.handler scope context ≠
            .error (.call (.noParameter callee.signature site index)) := by
  have hg := FrameGraph.solved_of_build hbuild
  refine ⟨?_, fun site callee frame hi hframe => ?_⟩
  · rw [evaluate_error_iff fun call hcall cache => decide_error_iff hg rfl
      (mem_recognizedCalls_iff.mp hcall)]
    constructor
    · rintro ⟨call, hcall, hopen, hstatic, hneeds⟩
      obtain ⟨-, hi, hentry, hframe⟩ :=
        recognize?_eq_some_iff.mp (mem_recognizedCalls_iff.mp hcall)
      exact ⟨call.site, call.callee, hi, Option.isSome_iff_exists.mpr ⟨_, hframe⟩, hstatic, hopen,
        Option.isSome_iff_exists.mpr ⟨_, hentry⟩, hneeds⟩
    · rintro ⟨site, callee, hi, hreachable, hstatic, hopen, hcontains, hneeds⟩
      have hrecognizes : Recognizes ⟨g, metadata, .reflection, safeCalls, maxTraceDepth⟩ site :=
        ⟨callee, hi, hcontains, hreachable⟩
      obtain ⟨call, hcall⟩ := recognizes_iff.mp hrecognizes
      obtain ⟨rfl, hi', -, -⟩ := recognize?_eq_some_iff.mp hcall
      obtain rfl : callee = call.callee :=
        Instruction.invoke.inj (Option.some.inj (hi.symm.trans hi'))
      exact ⟨call, mem_recognizedCalls_iff.mpr hcall, hopen, hstatic, hneeds⟩
  · obtain ⟨context, hmake, rfl, rfl⟩ := hg.exists_context hi hframe
    refine ⟨context, hmake, CallContext.receiver_eq_ok, fun entry hentry scope index => ?_⟩
    obtain ⟨c, hsignature, rfl⟩ := Catalog.exists_of_get?_reflection hentry
    exact ReflectiveCall.handler_ne_noParameter
      (ReflectiveCall.descriptor_eq_shape hsignature.symm) index

/-- A reflective look-up that is called in some way. -/
def called (kind : InvokeKind) (c : ReflectiveCall) : MethodRef :=
  ⟨kind, c.signature, c.shape, c.parse_descriptor⟩

/-- Finds a class, and then a field of nothing. -/
def fieldOfNothing : MethodBody where
  name := "fieldOfNothing"
  descriptor := ⟨[], none⟩
  flags := .static
  maxLocals := 0
  code := #[.ldc (.text "app.Plugin"), .invoke (called .static .forName), .pop,
    .ldc (.text "name"), .invoke (called .static (.field false)), .pop, .ret false]

/-- The class is looked up by a static call, as it should be; the look-up of a field is refused. -/
theorem evaluate_refused_fieldOfNothing : ∃ g, FrameGraph.build fieldOfNothing = .ok g ∧
    ∃ last error, evaluate ⟨g, Universe.metadata .empty, .reflection, .empty, 64⟩ .empty =
      (last, .error error) := by
  obtain ⟨g, hbuild, hread⟩ := FrameGraph.exists_of_build_map (m := fieldOfNothing)
    (show (FrameGraph.build fieldOfNothing).toOption.map (fun g =>
      (g.instruction? 4, g.isReachable 4)) =
      some (some (.invoke (called .static (.field false))), true) by cbv)
  obtain ⟨hi, hreachable⟩ := Prod.mk.inj hread
  exact ⟨g, hbuild, (evaluate_refused_iff hbuild _ _ _ _).1.mpr
    ⟨4, _, hi, hreachable, rfl, rfl, by cbv, by decide, by decide⟩⟩

end Evaluator

end CallFold
