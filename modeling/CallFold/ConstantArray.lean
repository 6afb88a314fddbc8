import CallFold.Constant
import CallFold.Reach

/-!
# Constant arrays

An argument of a call is a constant array when three things hold, which are checked in this order:

* it is a single allocation of a literal length (`FrameGraph.origin?`)
* no instruction from which the call can be reached lets the array escape (`Scope.escapes`)
* between the allocation and the call, which control passes in a straight line, every element is
  written exactly once and with a constant (`Scope.elements?`)

Three tracers follow references back to allocations. `origin?` and `mustOriginate?` follow single
producers, `mayAlias` follows all of them.
-/

namespace CallFold

/-! ## Where a reference comes from -/

/-- The allocation of an array, its length, and the stores that its reference passed through. -/
structure ArrayOrigin where
  allocation : Nat
  length : Nat
  stores : List Nat
deriving DecidableEq

/-- The natural number that an integer is. -/
def naturalOf? (value : Int32) : Option Nat :=
  if 0 ≤ value.toInt then some value.toInt.toNat else none

/-- Whether an instruction allocates an array. -/
def Instruction.isNewArray : Instruction → Bool
  | .newArray _ => true
  | _ => false

namespace FrameGraph

/-- The length with which a frame enters an allocation, if it is written in the code. -/
def literalLength? (g : FrameGraph) (frame : Frame) : Option Nat := do
  naturalOf? (← g.literalInt? (← frame.top?))

/-- Whether the only producer of a value is an allocation of an array. -/
def isNewArrayOnly (g : FrameGraph) (value : IndexSet) : Bool :=
  (value.single?.bind g.instruction?).any Instruction.isNewArray

/--
Follows a reference through at most `hops` single producers to an allocation of literal length.
A store is followed only if what it stores is that allocation.
-/
def traceOrigin (g : FrameGraph) : Nat → List Nat → IndexSet → Option ArrayOrigin
  | 0, _, _ => none
  | hops + 1, stores, value =>
    match value.single? with
    | none => none
    | some producer =>
      match g.node? producer with
      | some (.newArray _, frame) =>
        (g.literalLength? frame).map fun length => { allocation := producer, length, stores }
      | some (.load slot, frame) =>
        match frame.slot? slot with
        | some held => g.traceOrigin hops stores held
        | none => none
      | some (.store _, frame) =>
        match frame.top? with
        | some stored =>
          if g.isNewArrayOnly stored then g.traceOrigin hops (stores ++ [producer]) stored else none
        | none => none
      | some (.dup, frame) =>
        match frame.top? with
        | some copied => g.traceOrigin hops stores copied
        | none => none
      | _ => none

/-- The array that a reference is known to be, within a bound on the chain of copies. -/
def origin? (g : FrameGraph) (maxDepth : Nat) (value : IndexSet) : Option ArrayOrigin :=
  g.traceOrigin (maxDepth + 1) [] value

/-- The slot whose value an instruction hands on unchanged, if that is all it does. -/
def copiedSlot? (instruction : Instruction) (frame : Frame) : Option IndexSet :=
  match instruction with
  | .load slot => frame.slot? slot
  | .store _ | .dup | .checkCast _ => frame.top?
  | _ => none

/-- Follows a reference through at most `hops` single producers to an allocation. -/
def traceAllocation (g : FrameGraph) : Nat → IndexSet → Option Nat
  | 0, _ => none
  | hops + 1, value =>
    match value.single? with
    | none => none
    | some producer =>
      match g.node? producer with
      | some (.newArray _, _) => some producer
      | some (instruction, frame) =>
        match copiedSlot? instruction frame with
        | some held => g.traceAllocation hops held
        | none => none
      | none => none

/-- The allocation from which a reference must come, within a bound on the chain of copies. -/
def mustOriginate? (g : FrameGraph) (maxDepth : Nat) (value : IndexSet) : Option Nat :=
  g.traceAllocation (maxDepth + 1) value

/-- The slots whose values an instruction may hand on unchanged. -/
def copiedSlots (instruction : Instruction) (frame : Frame) : List IndexSet :=
  match instruction with
  | .dupX1 | .swap => (frame.peek? 0).toList ++ (frame.peek? 1).toList
  | other => (copiedSlot? other frame).toList

/-- The producers whose values a reachable instruction may hand on unchanged. -/
def copySources (g : FrameGraph) (index : Nat) : List Nat :=
  match g.node? index with
  | some (instruction, frame) => (copiedSlots instruction frame).flatMap IndexSet.toList
  | none => []

/-- Whether a value may be a reference that an allocation made, on some path. -/
def mayAlias (g : FrameGraph) (value : IndexSet) (allocation : Nat) : Bool :=
  (reachable g.length g.copySources value.toList).contains allocation

end FrameGraph

/-! ## Escapes -/

namespace Scope

/-- Whether a slot exists and may hold a reference that an allocation made. -/
def aliases (s : Scope) (allocation : Nat) (slot : Option IndexSet) : Bool :=
  slot.any fun value => s.graph.mayAlias value allocation

/--
Whether an instruction lets an array escape: it puts a reference to it into a field, an array or a
local slot that is not on the way from the allocation to the call, or passes it to a call that is
not safe.
-/
def escapesAt (s : Scope) (origin : ArrayOrigin) (index : Nat) : Bool :=
  match s.graph.node? index with
  | some (.putField _, frame) => s.aliases origin.allocation frame.top?
  | some (.putStatic _, frame) => s.aliases origin.allocation frame.top?
  | some (.arrayStore, frame) => s.aliases origin.allocation frame.top?
  | some (.store _, frame) =>
    !origin.stores.contains index && s.aliases origin.allocation frame.top?
  | some (.invoke callee, frame) =>
    !s.safeCalls.contains callee.signature && callee.argumentSlots ≤ frame.depth &&
      (frame.arguments callee.argumentSlots).any fun value =>
        s.graph.mayAlias value origin.allocation
  | _ => false

/-- Whether an array escapes at an instruction other than the call that can come before it. -/
def escapes (s : Scope) (origin : ArrayOrigin) (site : Nat) : Bool :=
  (reachable s.graph.length s.graph.predecessors [site]).toList.any fun index =>
    index ≠ site && s.escapesAt origin index

/-! ## Elements -/

/-- What an instruction between the allocation and the call does to the array. -/
inductive WindowEffect (α : Type) where
  | none
  | write (slot : Nat) (element : α)
  | spoil

/--
The effect of an array store. It concerns the array if its reference must come from the allocation;
if that is not certain but possible, nothing is known about the array any more.
-/
def storeEffect (s : Scope) (k : ConstantKind) (origin : ArrayOrigin) (frame : Frame) :
    WindowEffect k.Value :=
  match frame.peek? 2, frame.peek? 1, frame.peek? 0 with
  | some reference, some position, some stored =>
    match s.graph.mustOriginate? s.maxTraceDepth reference with
    | some allocation =>
      if allocation = origin.allocation then
        match (s.graph.literalInt? position).bind naturalOf?, s.infer k stored with
        | some slot, some element => if slot < origin.length then .write slot element else .spoil
        | _, _ => .spoil
      else .none
    | none => if s.graph.mayAlias reference origin.allocation then .spoil else .none
  | _, _, _ => .spoil

/-- The effect of an instruction between the allocation and the call; a branch spoils the window. -/
def windowEffect (s : Scope) (k : ConstantKind) (origin : ArrayOrigin) (index : Nat) :
    WindowEffect k.Value :=
  if (s.graph.successors index).size ≠ 1 then .spoil
  else
    match s.graph.instruction? index with
    | some .arrayStore =>
      match s.graph.frame? index with
      | some frame => s.storeEffect k origin frame
      | none => .spoil
    | _ => .none

/-- Collects the elements that are written, each of them once. -/
def collect {α : Type} : List (WindowEffect α) → List (Nat × α) → Option (List (Nat × α))
  | [], written => some written
  | .none :: rest, written => collect rest written
  | .spoil :: _, _ => none
  | .write slot element :: rest, written =>
    if (written.lookup slot).isSome then none else collect rest ((slot, element) :: written)

/-- The elements of an array at a call, in order, if every one of them was written. -/
def elements? (s : Scope) (k : ConstantKind) (origin : ArrayOrigin) (site : Nat) :
    Option (List k.Value) :=
  let window := List.range' origin.allocation (site - origin.allocation)
  if window.length < origin.length then none
  else
    match collect (window.map (s.windowEffect k origin)) [] with
    | some written => (List.range origin.length).mapM fun slot => written.lookup slot
    | none => none

/-- The constant elements of the array that a value is known to be at a call. -/
def inferArray (s : Scope) (k : ConstantKind) (value : IndexSet) (site : Nat) :
    Option (List k.Value) :=
  match s.graph.origin? s.maxTraceDepth value with
  | none => none
  | some origin =>
    if site ≤ origin.allocation || s.escapes origin site then none
    else s.elements? k origin site

end Scope

end CallFold
