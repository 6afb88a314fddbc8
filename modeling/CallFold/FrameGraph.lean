import CallFold.Frame
import CallFold.Method

/-!
# Frame graphs

The frames of a method with the control flow between its instructions. An instruction that cannot
be reached from the entry has no frame and no edges.
-/

namespace CallFold

/--
A method with the frame on entry to each instruction that can be reached, and for each instruction
where control can go from it and where it can come from.
-/
structure FrameGraph where
  body : MethodBody
  frames : Array (Option Frame)
  successorTable : Array IndexSet
  predecessorTable : Array IndexSet

namespace FrameGraph

/-- The number of instructions. -/
def length (g : FrameGraph) : Nat := g.frames.size

/-- The instruction at an index. -/
def instruction? (g : FrameGraph) (index : Nat) : Option Instruction := g.body.code[index]?

/-- The frame on entry to an instruction, if it can be reached. -/
def frame? (g : FrameGraph) (index : Nat) : Option Frame := g.frames[index]?.join

/-- Whether an instruction can be reached. -/
def isReachable (g : FrameGraph) (index : Nat) : Bool := (g.frame? index).isSome

/-- A reachable instruction with the frame on entry to it. -/
def node? (g : FrameGraph) (index : Nat) : Option (Instruction × Frame) :=
  match g.instruction? index, g.frame? index with
  | some instruction, some frame => some (instruction, frame)
  | _, _ => none

/-- The indices of the instructions that can be reached. -/
def reachableIndices (g : FrameGraph) : List Nat :=
  (List.range g.length).filter g.isReachable

/-- Where control can go from an instruction. -/
def successors (g : FrameGraph) (index : Nat) : IndexSet :=
  g.successorTable.getD index .empty

/-- The instructions from which control can come to an instruction, ascending. -/
def predecessors (g : FrameGraph) (index : Nat) : List Nat :=
  (g.predecessorTable.getD index .empty).toList

end FrameGraph

end CallFold
