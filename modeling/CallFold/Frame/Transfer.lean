import CallFold.Error
import CallFold.Frame

/-!
# The effect of an instruction on a frame

Every value that an instruction puts into a slot is produced by that instruction. Only `dup` leaves
the value that it copies in place; `dupX1` and `swap` count as the producers of every slot that they
touch.
-/

namespace CallFold.Frame

/-- Writes a local slot. -/
def write (f : Frame) (slot index : Nat) : Except FrameError Frame :=
  if slot < f.locals.length then
    .ok { f with locals := f.locals.set slot (.singleton index) }
  else .error (.writeOutOfRange slot index f.locals.length)

/-- The frame after the instruction at `index`, given the frame before it. -/
def execute (f : Frame) (index : Nat) (instruction : Instruction) : Except FrameError Frame :=
  match instruction with
  | .load slot =>
    if slot < f.locals.length then .ok (f.push (.singleton index))
    else .error (.loadOutOfRange slot index)
  | .store slot =>
    match f.stack with
    | [] => .error (.underflow index)
    | _ :: rest => write { f with stack := rest } slot index
  | .increment slot _ => f.write slot index
  | .dup =>
    match f.stack with
    | [] => .error (.underflow index)
    | _ :: _ => .ok (f.push (.singleton index))
  | other =>
    if other.pops ≤ f.depth then
      .ok { f with
        stack := List.replicate other.pushes (.singleton index) ++ f.stack.drop other.pops }
    else .error (.underflow index)

/-! ## No producer beyond the method -/

theorem bounded_push {n index : Nat} {f : Frame} (hf : f.Bounded n) (hi : index < n) :
    (f.push (.singleton index)).Bounded n := by
  intro s hs i his
  simp only [slots, push, List.mem_append, List.mem_cons] at hs
  rcases hs with hs | rfl | hs
  · exact hf s (List.mem_append_left _ hs) i his
  · rw [IndexSet.mem_singleton.mp his]; exact hi
  · exact hf s (List.mem_append_right _ hs) i his

theorem bounded_write {n slot index : Nat} {f g : Frame} (hf : f.Bounded n) (hi : index < n)
    (h : f.write slot index = .ok g) : g.Bounded n := by
  unfold write at h
  split at h
  · rw [← Except.ok.inj h]
    intro s hs i his
    rcases List.mem_append.mp hs with hs | hs
    · rcases List.mem_or_eq_of_mem_set hs with hs | rfl
      · exact hf s (List.mem_append_left _ hs) i his
      · rw [IndexSet.mem_singleton.mp his]; exact hi
    · exact hf s (List.mem_append_right _ hs) i his
  · simp at h

theorem bounded_of_sublist {n : Nat} {f : Frame} {stack : List IndexSet} (hf : f.Bounded n)
    (h : ∀ s ∈ stack, s ∈ f.stack) : Bounded n { f with stack := stack } := by
  intro s hs
  rcases List.mem_append.mp hs with hs | hs
  · exact hf s (List.mem_append_left _ hs)
  · exact hf s (List.mem_append_right _ (h s hs))

/-- An instruction of a method of length `n` adds no producer beyond `n`. -/
theorem bounded_execute {n index : Nat} {f g : Frame} {instruction : Instruction}
    (hf : f.Bounded n) (hi : index < n) (h : f.execute index instruction = .ok g) :
    g.Bounded n := by
  unfold execute at h
  split at h
  · split at h
    · rw [← Except.ok.inj h]; exact bounded_push hf hi
    · simp at h
  · split at h
    · simp at h
    · next top rest hstack =>
      refine bounded_write (bounded_of_sublist hf fun s hs => ?_) hi h
      rw [hstack]; exact List.mem_cons_of_mem _ hs
  · exact bounded_write hf hi h
  · split at h
    · simp at h
    · rw [← Except.ok.inj h]; exact bounded_push hf hi
  · split at h
    · rw [← Except.ok.inj h]
      intro s hs i his
      rcases List.mem_append.mp hs with hs | hs
      · exact hf s (List.mem_append_left _ hs) i his
      · rcases List.mem_append.mp hs with hs | hs
        · rw [(List.mem_replicate.mp hs).2] at his
          rw [IndexSet.mem_singleton.mp his]; exact hi
        · exact hf s (List.mem_append_right _ (List.mem_of_mem_drop hs)) i his
    · simp at h

end CallFold.Frame
