import CallFold.Proofs.Sources

/-!
# Running a method

A stack machine that executes the instructions of a method on values and a memory. It is
deterministic only where something depends on it. What arithmetic yields, which way a switch goes
and how a branch on anything but integers and null decides is left open, and calls do whatever the
world lets them do. A machine that decides more has fewer runs.

An instruction that has nothing to work on, such as a store to an array through null, ends the run,
and so do a return and a throw.

`Effect.get?` says what is in a place after an instruction: what was in the place from which the
instruction copies, or else what the instruction made. Along a run, every value is therefore the one
that its source supplied (`Run.get?_source`).
-/

namespace CallFold.Machine

/-! ## Values and memory -/

/-- What a slot holds. Types, which class literals name, are values of their own. -/
inductive Value where
  | null
  | int (value : Int32)
  | long (value : Int64)
  | float (bits : UInt32)
  | double (bits : UInt64)
  | text (value : String)
  | type (handle : TypeHandle)
  | ref (address : Nat)
deriving DecidableEq

namespace Value

/-- The value that a field or an element of a type has before it is written. -/
def initial : Descriptor → Value
  | .primitive .long => long 0
  | .primitive .float => float 0
  | .primitive .double => double 0
  | .primitive _ => int 0
  | .object _ | .array _ => null

/-- Whether the value is a number. -/
def isNumber : Value → Bool
  | int _ | long _ | float _ | double _ => true
  | null | text _ | type _ | ref _ => false

/-- The value of a truth value. -/
def ofBool (b : Bool) : Value := int (if b then 1 else 0)

end Value

/-- What stands at an address. -/
inductive Cell where
  | array (elements : List Value)
  | object (fields : FieldRef → Value)

/-- The cell holds a reference to an address. -/
def Cell.Refers (address : Nat) : Cell → Prop
  | array elements => .ref address ∈ elements
  | object fields => ∃ field, fields field = .ref address

/-- The class that wraps the values of a primitive type. -/
def wrapper : Primitive → String
  | .boolean => "java/lang/Boolean"
  | .byte => "java/lang/Byte"
  | .char => "java/lang/Character"
  | .short => "java/lang/Short"
  | .int => "java/lang/Integer"
  | .long => "java/lang/Long"
  | .float => "java/lang/Float"
  | .double => "java/lang/Double"
  | .void => "java/lang/Void"

/-- A wrapper class has a field for the type that it wraps. -/
def HoldsType (field : FieldRef) (type : Primitive) : Prop :=
  field.owner = wrapper type ∧ field.name = "TYPE"

/-- The cells by their addresses, and the static fields. -/
structure Memory where
  heap : Nat → Option Cell
  statics : FieldRef → Value

namespace Memory

/-- Puts a cell at an address. -/
def write (mem : Memory) (address : Nat) (cell : Cell) : Memory :=
  { mem with heap := fun a => if a = address then some cell else mem.heap a }

/-- Writes a static field. -/
def writeStatic (mem : Memory) (field : FieldRef) (v : Value) : Memory :=
  { mem with statics := fun f => if f = field then v else mem.statics f }

/-- What a static field is read as; the fields that hold primitive types are never written. -/
inductive Reads (mem : Memory) (field : FieldRef) : Value → Prop where
  | type {type : Primitive} (h : HoldsType field type) : Reads mem field (.type (.primitive type))
  | written (h : ∀ type, ¬ HoldsType field type) : Reads mem field (mem.statics field)

/-- Nothing in memory refers to an address. -/
structure Hidden (mem : Memory) (address : Nat) : Prop where
  heap : ∀ a cell, mem.heap a = some cell → ¬ cell.Refers address
  statics : ∀ field, mem.statics field ≠ .ref address

/-- An address that is not in use, neither in memory nor in a slot. -/
structure Fresh (mem : Memory) (c : Slots Value) (address : Nat) : Prop where
  unused : mem.heap address = none
  hidden : mem.Hidden address
  slots : ∀ place, c.get? place ≠ some (.ref address)

end Memory

/-! ## Instructions -/

/-- What the code of a method depends on: the classes that are there, and what calls do. -/
structure World where
  /-- The types for which a binary class name may stand. -/
  classes : String → TypeHandle → Prop
  /-- What a call at a site may do: its arguments and the memory, then its result and the memory. -/
  calls : Nat → MethodRef → List Value → Memory → Option Value → Memory → Prop

/-- The type for which a descriptor may stand. -/
inductive World.Stands (w : World) : Descriptor → TypeHandle → Prop where
  | primitive (type : Primitive) : Stands w (.primitive type) (.primitive type)
  | object {name : String} {handle : TypeHandle} (h : w.classes (dotted name) handle) :
      Stands w (.object name) handle
  | array {component : Descriptor} {handle : TypeHandle} (h : Stands w component handle) :
      Stands w (.array component) (.array handle)

/-- The value of a literal. -/
def World.LiteralValue (w : World) : Literal → Value → Prop
  | .int value, v => v = .int value
  | .long value, v => v = .long value
  | .float bits, v => v = .float bits
  | .double bits, v => v = .double bits
  | .text value, v => v = .text value
  | .type descriptor, v => ∃ handle, w.Stands descriptor handle ∧ v = .type handle

/--
What an instruction at a site does to slots and memory: the value it writes to its local slot, if it
has one to write, the values it puts on the stack, and the memory afterwards.
-/
inductive Effect (w : World) (site : Nat) (c : Slots Value) (mem : Memory) :
    Instruction → Value → List Value → Memory → Prop where
  | nop : Effect w site c mem .nop .null [] mem
  | pushNull : Effect w site c mem .pushNull .null [.null] mem
  | intConst (value : Int32) : Effect w site c mem (.intConst value) .null [.int value] mem
  | bytePush (value : Int32) : Effect w site c mem (.bytePush value) .null [.int value] mem
  | shortPush (value : Int32) : Effect w site c mem (.shortPush value) .null [.int value] mem
  | ldc {literal : Literal} {v : Value} (h : w.LiteralValue literal v) :
      Effect w site c mem (.ldc literal) .null [v] mem
  | load {slot : Nat} {v : Value} (h : c.locals[slot]? = some v) :
      Effect w site c mem (.load slot) .null [v] mem
  | store {slot : Nat} {v : Value} {rest : List Value} (h : c.stack = v :: rest) :
      Effect w site c mem (.store slot) v [] mem
  | increment {slot : Nat} {delta value : Int32} (h : c.locals[slot]? = some (.int value)) :
      Effect w site c mem (.increment slot delta) (.int (value + delta)) [] mem
  | newArray {element : Descriptor} {n : Int32} {length address : Nat} {rest : List Value}
      (h : c.stack = .int n :: rest) (hlength : naturalOf? n = some length)
      (hfresh : mem.Fresh c address) :
      Effect w site c mem (.newArray element) .null [.ref address]
        (mem.write address (.array (List.replicate length (.initial element))))
  | arrayLength {address : Nat} {elements rest : List Value} (h : c.stack = .ref address :: rest)
      (hcell : mem.heap address = some (.array elements)) :
      Effect w site c mem .arrayLength .null [.int (Int32.ofNat elements.length)] mem
  | arrayLoad {n : Int32} {address index : Nat} {v : Value} {elements rest : List Value}
      (h : c.stack = .int n :: .ref address :: rest)
      (hcell : mem.heap address = some (.array elements)) (hindex : naturalOf? n = some index)
      (hv : elements[index]? = some v) :
      Effect w site c mem .arrayLoad .null [v] mem
  | arrayStore {n : Int32} {address index : Nat} {v : Value} {elements rest : List Value}
      (h : c.stack = v :: .int n :: .ref address :: rest)
      (hcell : mem.heap address = some (.array elements)) (hindex : naturalOf? n = some index)
      (hlt : index < elements.length) :
      Effect w site c mem .arrayStore .null [] (mem.write address (.array (elements.set index v)))
  | dup {v : Value} {rest : List Value} (h : c.stack = v :: rest) :
      Effect w site c mem .dup .null [v] mem
  | dupX1 {u v : Value} {rest : List Value} (h : c.stack = v :: u :: rest) :
      Effect w site c mem .dupX1 .null [v, u, v] mem
  | pop {v : Value} {rest : List Value} (h : c.stack = v :: rest) :
      Effect w site c mem .pop .null [] mem
  | swap {u v : Value} {rest : List Value} (h : c.stack = v :: u :: rest) :
      Effect w site c mem .swap .null [u, v] mem
  | binary {op : BinaryOp} {x y v : Value} {rest : List Value} (h : c.stack = y :: x :: rest)
      (hv : v.isNumber = true) : Effect w site c mem (.binary op) .null [v] mem
  | unary {op : UnaryOp} {x v : Value} {rest : List Value} (h : c.stack = x :: rest)
      (hv : v.isNumber = true) : Effect w site c mem (.unary op) .null [v] mem
  | new {className : String} {address : Nat} (hfresh : mem.Fresh c address) :
      Effect w site c mem (.new className) .null [.ref address]
        (mem.write address (.object fun field => .initial field.type))
  | checkCast {type : Descriptor} {v : Value} {rest : List Value} (h : c.stack = v :: rest) :
      Effect w site c mem (.checkCast type) .null [v] mem
  | instanceOf {type : Descriptor} {v : Value} {rest : List Value} (h : c.stack = v :: rest)
      (b : Bool) : Effect w site c mem (.instanceOf type) .null [.ofBool b] mem
  | getStatic {field : FieldRef} {v : Value} (h : mem.Reads field v) :
      Effect w site c mem (.getStatic field) .null [v] mem
  | putStatic {field : FieldRef} {v : Value} {rest : List Value} (h : c.stack = v :: rest) :
      Effect w site c mem (.putStatic field) .null [] (mem.writeStatic field v)
  | getField {field : FieldRef} {address : Nat} {fields : FieldRef → Value} {rest : List Value}
      (h : c.stack = .ref address :: rest) (hcell : mem.heap address = some (.object fields)) :
      Effect w site c mem (.getField field) .null [fields field] mem
  | putField {field : FieldRef} {address : Nat} {fields : FieldRef → Value} {v : Value}
      {rest : List Value} (h : c.stack = v :: .ref address :: rest)
      (hcell : mem.heap address = some (.object fields)) :
      Effect w site c mem (.putField field) .null []
        (mem.write address (.object fun f => if f = field then v else fields f))
  | invoke {callee : MethodRef} {result : Option Value} {mem' : Memory}
      (h : callee.argumentSlots ≤ c.stack.length)
      (hcall : w.calls site callee (c.stack.take callee.argumentSlots).reverse mem result mem')
      (hresult : result.isSome = callee.descriptor.returnsValue) :
      Effect w site c mem (.invoke callee) .null result.toList mem'
  | goto (target : Nat) : Effect w site c mem (.goto target) .null [] mem
  | branch {condition : Condition} {target : Nat} {x : Value} {rest : List Value}
      (h : c.stack = x :: rest) : Effect w site c mem (.branch condition target) .null [] mem
  | branchCompare {condition : Condition} {target : Nat} {x y : Value} {rest : List Value}
      (h : c.stack = y :: x :: rest) :
      Effect w site c mem (.branchCompare condition target) .null [] mem
  | switch {default : Nat} {targets : List Nat} {x : Value} {rest : List Value}
      (h : c.stack = x :: rest) : Effect w site c mem (.switch default targets) .null [] mem

/-- How a condition on two values is decided, if they decide it. -/
def decides? : Condition → Value → Value → Option Bool
  | .null, x, _ => some (x = .null)
  | .nonnull, x, _ => some (x ≠ .null)
  | .eq, .int x, .int y => some (x = y)
  | .ne, .int x, .int y => some (x ≠ y)
  | .lt, .int x, .int y => some (x < y)
  | .ge, .int x, .int y => some (y ≤ x)
  | .gt, .int x, .int y => some (y < x)
  | .le, .int x, .int y => some (x ≤ y)
  | _, _, _ => none

/-- A condition on two values may turn out true or false. -/
def MayDecide (condition : Condition) (x y : Value) (taken : Bool) : Prop :=
  ∀ b, decides? condition x y = some b → taken = b

/-- Where control goes from an instruction; a branch on one value compares it with zero. -/
def Goes (site : Nat) (c : Slots Value) : Instruction → Nat → Prop
  | .goto target, next => next = target
  | .branch condition target, next => ∃ x taken, c.stack[0]? = some x ∧
      MayDecide condition x (.int 0) taken ∧ next = if taken then target else site + 1
  | .branchCompare condition target, next => ∃ x y taken, c.stack[0]? = some y ∧
      c.stack[1]? = some x ∧ MayDecide condition x y taken ∧
      next = if taken then target else site + 1
  | .switch default targets, next => next ∈ default :: targets
  | .ret _, _ | .raise, _ => False
  | _, next => next = site + 1

/-! ## Runs -/

/-- The next instruction, the slots and the memory. -/
structure State where
  pc : Nat
  slots : Slots Value
  memory : Memory

/-- Executes one instruction. -/
inductive Step (w : World) (m : MethodBody) (s : State) : State → Prop where
  | execute {i : Instruction} {written : Value} {filled : List Value} {mem' : Memory} {next : Nat}
      (hcode : m.code[s.pc]? = some i)
      (heffect : Effect w s.pc s.slots s.memory i written filled mem')
      (hgoes : Goes s.pc s.slots i next) :
      Step w m s ⟨next, s.slots.change i written filled, mem'⟩

/-- The start of a run: any values in the local slots, and nothing on the stack. -/
structure Initial (m : MethodBody) (s : State) : Prop where
  pc : s.pc = 0
  locals : s.slots.locals.length = m.maxLocals
  stack : s.slots.stack = []

/-- A run from an initial state, with the trail of what it executed, the latest first. -/
inductive Run (w : World) (m : MethodBody) (init : State) : List Nat → State → Prop where
  | start (h : Initial m init) : Run w m init [] init
  | step {trail : List Nat} {s s' : State} (hrun : Run w m init trail s) (hstep : Step w m s s') :
      Run w m init (s.pc :: trail) s'

variable {w : World} {m : MethodBody} {init s s' : State} {trail : List Nat}

/-! ## What an instruction does -/

section

variable {site : Nat} {c : Slots Value} {mem mem' : Memory} {i : Instruction} {written : Value}
  {filled : List Value}

theorem Effect.length_filled (h : Effect w site c mem i written filled mem') :
    filled.length = i.filled := by
  cases h with
  | @invoke callee result _ _ _ hresult =>
    show result.toList.length = callee.descriptor.returnsValue.toNat
    rw [← hresult]
    cases result <;> rfl
  | _ => rfl

/-- An instruction finds on the stack what it takes. -/
theorem Effect.pops_le (h : Effect w site c mem i written filled mem') :
    i.pops ≤ c.stack.length := by
  cases h with
  | invoke hcount _ _ => exact hcount
  | _ => simp_all [Instruction.pops]

/-- What a copying instruction puts into a new place was in the place that it copies. -/
theorem Effect.get?_of_copy (h : Effect w site c mem i written filled mem') {place : Place}
    {v : Value} (hcopy : i.isCopy = true) (hnew : i.before place = none)
    (hv : (c.change i written filled).get? place = some v) :
    ∃ old, i.source? place = some old ∧ c.get? old = some v := by
  cases place with
  | slot index =>
    have hwritten := Instruction.before_slot_eq_none_iff.mp hnew
    rw [Slots.get?, Slots.change, Slots.getElem?_writeLocal, if_pos hwritten] at hv
    obtain ⟨_, -, rfl⟩ := Option.map_eq_some_iff.mp hv
    cases h with
    | store hstack => exact ⟨.stack 0, if_pos hwritten, by simp [Slots.get?, hstack]⟩
    | _ => simp_all [Instruction.writtenSlot?, Instruction.isCopy]
  | stack below =>
    have hlt := Instruction.before_stack_eq_none_iff.mp hnew
    have hlength := h.length_filled
    rw [Slots.get?, Slots.change, List.getElem?_append_left (by omega)] at hv
    rw [Instruction.source?, if_pos hlt]
    cases h with
    | load hslot =>
      obtain rfl : below = 0 := Nat.lt_one_iff.mp hlt
      exact ⟨_, rfl, hslot.trans hv⟩
    | dup hstack | checkCast hstack =>
      obtain rfl : below = 0 := Nat.lt_one_iff.mp hlt
      exact ⟨_, rfl, by rw [Slots.get?, hstack]; exact hv⟩
    | dupX1 hstack =>
      refine ⟨_, rfl, ?_⟩
      rw [Slots.get?, hstack]
      have hbelow : below = 0 ∨ below = 1 ∨ below = 2 := by
        have hlt : below < 3 := hlt
        omega
      rcases hbelow with rfl | rfl | rfl <;> exact hv
    | swap hstack =>
      refine ⟨_, rfl, ?_⟩
      rw [Slots.get?, hstack]
      have hbelow : below = 0 ∨ below = 1 := by
        have hlt : below < 2 := hlt
        omega
      rcases hbelow with rfl | rfl <;> exact hv
    | store _ => exact absurd hlt (Nat.not_lt_zero below)
    | _ => simp [Instruction.isCopy] at hcopy

/-- A place holds what was in the place from which it was copied, or what the instruction made. -/
theorem Effect.get? (h : Effect w site c mem i written filled mem') {place : Place} {v : Value}
    (hv : (c.change i written filled).get? place = some v) :
    (∃ old, i.source? place = some old ∧ c.get? old = some v) ∨
      i.source? place = none ∧ i.isCopy = false ∧
        (v ∈ filled ∨ i.writtenSlot?.isSome = true ∧ v = written) := by
  cases hbefore : i.before place with
  | some old =>
    rw [Slots.get?_change_of_before h.length_filled hbefore] at hv
    exact Or.inl ⟨old, Instruction.source?_of_before hbefore, hv⟩
  | none =>
    cases hcopy : i.isCopy with
    | false =>
      refine Or.inr ⟨Instruction.source?_of_not_copy hcopy hbefore, rfl, ?_⟩
      exact (Slots.get?_change_of_new h.length_filled hbefore hv).symm
    | true => exact Or.inl (h.get?_of_copy hcopy hbefore hv)

/-- Control goes along an edge of the control flow. -/
theorem Goes.mem_successors {next : Nat} (h : Goes site c i next) : next ∈ i.successors site := by
  rw [MethodBody.mem_successors]
  cases i with
  | goto target => exact Or.inr (by simpa [Instruction.branchTargets, Goes] using h)
  | branch condition target =>
    obtain ⟨x, taken, -, -, rfl⟩ := h
    cases taken <;> simp [Instruction.branchTargets, Instruction.fallsThrough, Instruction.flow,
      Flow.fallsThrough]
  | branchCompare condition target =>
    obtain ⟨x, y, taken, -, -, -, rfl⟩ := h
    cases taken <;> simp [Instruction.branchTargets, Instruction.fallsThrough, Instruction.flow,
      Flow.fallsThrough]
  | switch default targets => exact Or.inr h
  | ret value => exact absurd h id
  | raise => exact absurd h id
  | _ => exact Or.inl ⟨rfl, h⟩

/-- The instruction can put a value into a place that is new. -/
def Makes (w : World) (m : MethodBody) (site : Nat) (v : Value) : Prop :=
  ∃ c mem i written filled mem', m.code[site]? = some i ∧
    Effect w site c mem i written filled mem' ∧
    (v ∈ filled ∨ i.writtenSlot?.isSome = true ∧ v = written)

end

/-! ## What a run does -/

/-- A step goes along an edge. -/
theorem Step.edge (h : Step w m s s') : m.Edge s.pc s'.pc := by
  cases h with
  | execute hcode _ hgoes => exact (MethodBody.edge_iff hcode).mpr hgoes.mem_successors

/-- A place holds what its source supplied: the entry, or the instruction that made it. -/
theorem Run.get?_source (h : Run w m init trail s) {place : Place} {v : Value}
    (hv : s.slots.get? place = some v) :
    match m.source trail place with
    | .entry old => init.slots.get? old = some v
    | .made _ index => Makes w m index v := by
  induction h generalizing place with
  | start _ => exact hv
  | @step trail s s' _ hstep ih =>
    cases hstep with
    | execute hcode heffect _ =>
      rcases heffect.get? hv with ⟨old, hsource, hold⟩ | ⟨hsource, -, hnew⟩
      · rw [MethodBody.source_cons_of_some hcode hsource]
        exact ih hold
      · rw [MethodBody.source_cons_of_none hcode hsource]
        exact ⟨_, _, _, _, _, _, hcode, heffect, hnew⟩

/-- A run follows a path. -/
theorem Run.path {g : FrameGraph} (hg : g.Solved) (hpos : 0 < g.body.length)
    (h : Run w g.body init trail s) : g.body.Path trail s.pc := by
  induction h with
  | start hinit =>
    rw [hinit.pc]
    exact .entry hpos
  | step _ hstep ih =>
    obtain ⟨f, hf, -⟩ := hg.covers ih
    obtain ⟨_, hi, hfault, -⟩ := hg.step _ f hf
    exact .step ih hstep.edge (MethodBody.lt_length_of_edge hfault hstep.edge)

theorem Run.length_locals (h : Run w m init trail s) :
    s.slots.locals.length = m.maxLocals := by
  induction h with
  | start hinit => exact hinit.locals
  | step _ hstep ih =>
    cases hstep with
    | execute _ _ _ => rw [Slots.length_locals_change, ih]

theorem Run.length_stack (h : Run w m init trail s) :
    s.slots.stack.length = m.depthAfter trail := by
  induction h with
  | start hinit => rw [hinit.stack]; rfl
  | step _ hstep ih =>
    cases hstep with
    | execute hcode heffect _ =>
      rw [Slots.length_stack_change _ heffect.pops_le heffect.length_filled,
        MethodBody.depthAfter_cons hcode, ih]

/-- A run has a value in every place that a frame knows. -/
theorem Run.exists_value {g : FrameGraph} (hg : g.Solved) (h : Run w g.body init trail s)
    {f : Frame} {place : Place} {set : IndexSet} (hf : g.frame? s.pc = some f)
    (hset : f.view.get? place = some set) : ∃ v, s.slots.get? place = some v := by
  obtain ⟨f', hf', hdepth, -⟩ := hg.covers (h.path hg (hg.length_pos hf))
  obtain rfl : f = f' := Option.some.inj (hf.symm.trans hf')
  cases place with
  | slot index =>
    have hlt : index < f.locals.length := (List.getElem?_eq_some_iff.mp hset).1
    rw [(hg.justified _ f hf).length, ← h.length_locals] at hlt
    exact ⟨_, List.getElem?_eq_getElem hlt⟩
  | stack below =>
    have hlt : below < f.depth := (List.getElem?_eq_some_iff.mp hset).1
    rw [hdepth, ← h.length_stack] at hlt
    exact ⟨_, List.getElem?_eq_getElem hlt⟩

/-- A frame knows every place in which a run has a value. -/
theorem Run.exists_producers {g : FrameGraph} (hg : g.Solved) (hpos : 0 < g.body.length)
    (h : Run w g.body init trail s) {place : Place} {v : Value}
    (hv : s.slots.get? place = some v) :
    ∃ f set, g.frame? s.pc = some f ∧ f.view.get? place = some set := by
  obtain ⟨f, hf, hdepth, -⟩ := hg.covers (h.path hg hpos)
  cases place with
  | slot index =>
    have hlt : index < s.slots.locals.length := (List.getElem?_eq_some_iff.mp hv).1
    rw [h.length_locals, ← (hg.justified _ f hf).length] at hlt
    exact ⟨f, _, hf, List.getElem?_eq_getElem hlt⟩
  | stack below =>
    have hlt : below < s.slots.stack.length := (List.getElem?_eq_some_iff.mp hv).1
    rw [h.length_stack, ← hdepth] at hlt
    exact ⟨f, _, hf, List.getElem?_eq_getElem hlt⟩

end CallFold.Machine
