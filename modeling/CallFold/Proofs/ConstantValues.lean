import CallFold.Proofs.Chains
import CallFold.Proofs.Machine
import CallFold.Universe.Lookup
import Mathlib

/-!
# Constants and runs

A constant that is inferred for a place is what a run finds there, unless the run still has a value
in it that it started with. Such a value has no producer and is lost when paths meet: if one path
stores a constant to a parameter's slot and another does not, the store is the only producer after
they have met.
-/

namespace CallFold

/-- A constant of a kind is a value of the machine. There are none of the last two kinds. -/
def ConstantKind.Denotes : (k : ConstantKind) → k.Value → Machine.Value → Prop
  | text, constant, v => v = .text constant
  | boolean, constant, v => v = .ofBool constant
  | type, constant, v => v = .type constant
  | parameterList, _, _ => False
  | lookupHandle, _, _ => False

/-! ## What a run finds -/

namespace Machine

/--
A class name that a scope knows stands for the type that the scope finds, and a call that is
resolved to a type returns that type.
-/
structure World.Agrees (w : World) (s : Scope) : Prop where
  classes : ∀ name known, s.metadata.classForName name = some known →
    ∀ handle, w.classes name handle → handle = known
  calls : ∀ site callee arguments mem v mem', w.calls site callee arguments mem (some v) mem' →
    ∀ handle, s.cache.get? site = some (.resolved (.type handle)) → v = .type handle

variable {w : World} {s : Scope} {init state : State} {trail : List Nat} {f : Frame}
  {place : Place} {set : IndexSet} {k : ConstantKind} {constant : k.Value} {v : Value}

/-- A descriptor that is resolved stands for the type that was found. -/
theorem World.Agrees.eq_of_stands (hw : w.Agrees s) {descriptor : Descriptor}
    {handle known : TypeHandle} (h : w.Stands descriptor handle)
    (hknown : s.metadata.resolveDescriptor descriptor = some known) : handle = known := by
  induction h generalizing known with
  | primitive type => exact Option.some.inj hknown
  | object hclass => exact hw.classes _ known hknown _ hclass
  | array _ ih =>
    obtain ⟨component, hcomponent, rfl⟩ := Option.map_eq_some_iff.mp hknown
    rw [ih hcomponent]

theorem holdsType_of_primitiveTypeField {field : FieldRef} {type : Primitive}
    (h : primitiveTypeField? field.owner field.name = some type) : HoldsType field type := by
  unfold primitiveTypeField? at h
  split at h
  · next hname =>
    refine ⟨?_, hname⟩
    split at h <;> cases h <;> assumption
  · cases h

theorem HoldsType.eq {field : FieldRef} {type type' : Primitive} (h : HoldsType field type)
    (h' : HoldsType field type') : type = type' := by
  have hwrapper : wrapper type = wrapper type' := h.1.symm.trans h'.1
  revert hwrapper
  cases type <;> cases type' <;> decide

/-- What an instruction makes that makes a constant by itself is that constant. -/
theorem World.Agrees.denotes_leaf (hw : w.Agrees s) {site : Nat} {c : Slots Value}
    {mem mem' : Memory} {i : Instruction} {written : Value}
    (h : Effect w site c mem i written [v] mem')
    (hleaf : ConstantKind.leaf? s.metadata i k = some constant) : k.Denotes constant v := by
  cases k with
  | text =>
    obtain rfl := ConstantKind.textLeaf?_eq_some_iff.mp hleaf
    cases h with
    | ldc hliteral => exact hliteral
  | boolean =>
    obtain rfl := ConstantKind.booleanLeaf?_eq_some_iff.mp hleaf
    cases h with
    | intConst _ => rfl
  | type =>
    rcases ConstantKind.typeLeaf?_eq_some hleaf with ⟨descriptor, rfl, hknown⟩ | hfield
    · cases h with
      | ldc hliteral =>
        obtain ⟨handle, hstands, rfl⟩ := hliteral
        rw [hw.eq_of_stands hstands hknown]
        rfl
    · obtain ⟨field, type, rfl, htype, rfl⟩ := hfield
      have hholds := holdsType_of_primitiveTypeField htype
      cases h with
      | getStatic hreads =>
        cases hreads with
        | type hother =>
          rw [hother.eq hholds]
          rfl
        | written hno => exact absurd hholds (hno type)
  | parameterList => simp [ConstantKind.leaf?] at hleaf
  | lookupHandle => simp [ConstantKind.leaf?] at hleaf

/-- What a resolved call is known to return is a type. -/
theorem exists_of_ofResolved {r : ResolvedValue}
    (h : ConstantKind.ofResolved? r k = some constant) :
    ∃ handle, r = .type handle ∧ k.Denotes constant (.type handle) := by
  cases k with
  | type =>
    cases r with
    | type handle => exact ⟨handle, rfl, by rw [← Option.some.inj h]; rfl⟩
    | member _ => simp [ConstantKind.ofResolved?] at h
    | members _ => simp [ConstantKind.ofResolved?] at h
  | _ => simp [ConstantKind.ofResolved?] at h

/-- What an instruction makes that is known to make a constant is that constant. -/
theorem World.Agrees.denotes (hw : w.Agrees s) {q : Nat} (hq : s.MakesConstant k constant q)
    (hv : Makes w s.graph.body q v) : k.Denotes constant v := by
  obtain ⟨c, mem, i, written, filled, mem', hcode, heffect, hv⟩ := hv
  cases hq with
  | @leaf i' hi hleaf =>
    obtain rfl : i = i' := Option.some.inj (hcode.symm.trans hi)
    obtain ⟨-, hwritten, hfilled⟩ := ConstantKind.pushes_of_leaf hleaf
    obtain ⟨u, rfl⟩ := List.length_eq_one_iff.mp (heffect.length_filled.trans hfilled)
    obtain rfl : v = u := by simpa [hwritten] using hv
    exact hw.denotes_leaf heffect hleaf
  | @call callee r hi hcache hr =>
    obtain rfl : i = .invoke callee := Option.some.inj (hcode.symm.trans hi)
    cases heffect with
    | @invoke _ result _ _ hcall _ =>
      obtain rfl : result = some v := by simpa [Instruction.writtenSlot?] using hv
      obtain ⟨handle, rfl, hdenotes⟩ := exists_of_ofResolved hr
      rw [hw.calls _ _ _ _ _ _ hcall handle hcache]
      exact hdenotes

theorem Run.denotes_of_infer (hg : s.graph.Solved) (hw : w.Agrees s)
    (hrun : Run w s.graph.body init trail state) (hf : s.graph.frame? state.pc = some f)
    (hset : f.view.get? place = some set) (hinfer : s.infer k set = some constant)
    (hv : state.slots.get? place = some v) :
    (∃ slot, slot < s.graph.body.maxLocals ∧
      s.graph.body.source trail place = .entry (.slot slot)) ∨ k.Denotes constant v := by
  obtain ⟨q, hleads, hq⟩ := Scope.exists_of_trace hinfer
  obtain ⟨i, hi, hcopy⟩ := hq.not_copy
  have hpath := hrun.path hg (hg.length_pos hf)
  have hvalue := hrun.get?_source hv
  rcases hg.source_of_leads hleads hi hcopy hpath hf hset with hentry | ⟨time, hsource⟩
  · exact Or.inl hentry
  · rw [hsource] at hvalue
    exact Or.inr (hw.denotes hq hvalue)

/--
A run finds the constant that was inferred for a place exactly if it made the value there itself, or
started with that constant in the slot from which the value comes.
-/
theorem infer_denotes_iff {m : MethodBody} (hbuild : FrameGraph.build m = .ok s.graph)
    (hw : w.Agrees s) (hrun : Run w m init trail state)
    (hf : s.graph.frame? state.pc = some f) (hset : f.view.get? place = some set)
    (hinfer : s.infer k set = some constant) :
    ∃ v, state.slots.get? place = some v ∧
      (k.Denotes constant v ↔ ∀ old u, m.source trail place = .entry old →
        init.slots.get? old = some u → k.Denotes constant u) := by
  obtain rfl := FrameGraph.body_of_build hbuild
  have hg := FrameGraph.solved_of_build hbuild
  obtain ⟨v, hv⟩ := hrun.exists_value hg hf hset
  have hvalue := hrun.get?_source hv
  refine ⟨v, hv, fun hdenotes old u hsource hu => ?_, fun hentry => ?_⟩
  · rw [hsource] at hvalue
    rw [← Option.some.inj (hvalue.symm.trans hu)]
    exact hdenotes
  · rcases hrun.denotes_of_infer hg hw hf hset hinfer hv with ⟨slot, -, hsource⟩ | hdenotes
    · rw [hsource] at hvalue
      exact hentry _ v hsource hvalue
    · exact hdenotes

/-! ## A parameter that is sometimes overwritten -/

/-- A world without classes in which calls do nothing and return nothing. -/
def quietWorld : World where
  classes := fun _ _ => False
  calls := fun _ _ _ mem result mem' => result = none ∧ mem' = mem

/-- What an analysis may consult in the quiet world. -/
def quietScope (g : FrameGraph) (safe : SafeCalls) : Scope where
  graph := g
  metadata := Universe.metadata .empty
  safeCalls := safe
  maxTraceDepth := 8
  cache := .empty

theorem agrees_quiet (g : FrameGraph) (safe : SafeCalls) :
    quietWorld.Agrees (quietScope g safe) :=
  ⟨fun _ _ _ _ h => absurd h id, fun _ _ _ _ _ _ h => absurd h.1 (by simp)⟩

/-- The start of a run with nothing in memory. -/
def begin (locals : List Value) : State where
  pc := 0
  slots := ⟨locals, []⟩
  memory := ⟨fun _ => none, fun _ => .null⟩

/-- Overwrites the first parameter unless the second is zero, and returns it. -/
def maybeOverwrite : MethodBody where
  name := "maybeOverwrite"
  descriptor := ⟨[.object "java/lang/String", .primitive .boolean],
    some (.object "java/lang/String")⟩
  flags := .static
  maxLocals := 2
  code := #[.load 1, .branch .eq 4, .ldc (.text "x"), .store 0, .load 0, .ret true]

theorem infer_maybeOverwrite : ∃ g f, FrameGraph.build maybeOverwrite = .ok g ∧
    g.frame? 4 = some f ∧ f.view.get? (.slot 0) = some (.singleton 3) ∧
    (quietScope g .empty).infer .text (.singleton 3) = some "x" := by
  obtain ⟨g, hbuild, hread⟩ := FrameGraph.exists_of_build_map (m := maybeOverwrite)
    (show (FrameGraph.build maybeOverwrite).toOption.map
      (fun g => ((g.frame? 4).map (·.slot? 0), (quietScope g .empty).infer .text (.singleton 3))) =
        some (some (some (.singleton 3)), some "x") by cbv)
  obtain ⟨hframe, hinfer⟩ := Prod.mk.inj hread
  obtain ⟨f, hf, hset⟩ := Option.map_eq_some_iff.mp hframe
  exact ⟨g, f, hbuild, hf, hset, hinfer⟩

/-- A run that overwrites the parameter finds the constant, whatever it started with. -/
theorem infer_denotes_overwritten : ∃ g f state, FrameGraph.build maybeOverwrite = .ok g ∧
    quietWorld.Agrees (quietScope g .empty) ∧
    Run quietWorld maybeOverwrite (begin [.text "p", .int 1]) [3, 2, 1, 0] state ∧
    g.frame? state.pc = some f ∧ f.view.get? (.slot 0) = some (.singleton 3) ∧
    (quietScope g .empty).infer .text (.singleton 3) = some "x" ∧
    ∃ v, state.slots.get? (.slot 0) = some v ∧
      (ConstantKind.text.Denotes "x" v ↔ ∀ old u,
        maybeOverwrite.source [3, 2, 1, 0] (.slot 0) = .entry old →
        (begin [.text "p", .int 1]).slots.get? old = some u → ConstantKind.text.Denotes "x" u) := by
  obtain ⟨g, f, hbuild, hf, hset, hinfer⟩ := infer_maybeOverwrite
  have h₀ : Run quietWorld maybeOverwrite (begin [.text "p", .int 1]) [] _ :=
    .start ⟨rfl, rfl, rfl⟩
  have h₁ := h₀.step (.execute rfl (.load rfl) rfl)
  have h₂ := h₁.step (.execute rfl (.branch rfl)
    ⟨_, false, rfl, fun b hb => Option.some.inj hb, rfl⟩)
  have h₃ := h₂.step (.execute rfl (.ldc rfl) rfl)
  have h₄ := h₃.step (.execute rfl (.store rfl) rfl)
  exact ⟨g, f, _, hbuild, agrees_quiet g .empty, h₄, hf, hset, hinfer,
    infer_denotes_iff (s := quietScope g .empty) hbuild (agrees_quiet g .empty) h₄ hf hset hinfer⟩

/-- A run that leaves the parameter alone finds it, but the constant is inferred all the same. -/
theorem infer_wrong_where_paths_meet : ∃ g f state, FrameGraph.build maybeOverwrite = .ok g ∧
    quietWorld.Agrees (quietScope g .empty) ∧
    Run quietWorld maybeOverwrite (begin [.text "p", .int 0]) [1, 0] state ∧
    g.frame? state.pc = some f ∧ f.view.get? (.slot 0) = some (.singleton 3) ∧
    (quietScope g .empty).infer .text (.singleton 3) = some "x" ∧
    state.slots.get? (.slot 0) = some (.text "p") := by
  obtain ⟨g, f, hbuild, hf, hset, hinfer⟩ := infer_maybeOverwrite
  have h₀ : Run quietWorld maybeOverwrite (begin [.text "p", .int 0]) [] _ :=
    .start ⟨rfl, rfl, rfl⟩
  have h₁ := h₀.step (.execute rfl (.load rfl) rfl)
  have h₂ := h₁.step (.execute rfl (.branch rfl)
    ⟨_, true, rfl, fun b hb => Option.some.inj hb, rfl⟩)
  exact ⟨g, f, _, hbuild, agrees_quiet g .empty, h₂, hf, hset, hinfer, rfl⟩

end Machine

end CallFold
