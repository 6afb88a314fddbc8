import CallFold.Error
import CallFold.Frame

/-!
# Call contexts

A call site with the producers of its arguments. The arguments are the topmost values of the stack,
and the receiver, if the call has one, is the first of them.
-/

namespace CallFold

/-- A call site with its arguments, one for each slot that the call takes. -/
structure CallContext where
  site : Nat
  callee : MethodRef
  frame : Frame
  arguments : List IndexSet
  length_arguments : arguments.length = callee.argumentSlots

namespace CallContext

theorem length_frame_arguments {f : Frame} {count : Nat} (h : count ≤ f.depth) :
    (f.arguments count).length = count := by
  unfold Frame.depth at h
  simp only [Frame.arguments, List.length_reverse, List.length_take]
  omega

/-- Finds the arguments of a call in the frame on entry to it. -/
def make (site : Nat) (callee : MethodRef) (frame : Frame) : Except Error CallContext :=
  if h : callee.argumentSlots ≤ frame.depth then
    .ok { site, callee, frame, arguments := frame.arguments callee.argumentSlots,
          length_arguments := length_frame_arguments h }
  else
    .error (.call (.missingArguments callee.signature site callee.argumentSlots frame.depth))

theorem arguments_ne_nil {c : CallContext} (h : c.callee.kind.hasReceiver = true) :
    c.arguments ≠ [] := by
  intro hnil
  have hlen := c.length_arguments
  rw [hnil, MethodRef.argumentSlots, h] at hlen
  simp at hlen

/-- The receiver of a call. -/
def receiver (c : CallContext) : Except Error IndexSet :=
  if h : c.callee.kind.hasReceiver = true then .ok (c.arguments.head (arguments_ne_nil h))
  else .error (.call (.noReceiver c.callee.signature c.site))

/-- A declared parameter of a call; the receiver is not counted. -/
def parameter (c : CallContext) (index : Nat) : Except Error IndexSet :=
  match c.arguments[index + c.callee.kind.hasReceiver.toNat]? with
  | some value => .ok value
  | none => .error (.call (.noParameter c.callee.signature c.site index))

end CallContext

end CallFold
