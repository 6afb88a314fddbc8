import CallFold.Error
import CallFold.IndexSet

/-!
# Frames

What is known on entry to an instruction: for every local slot and every stack slot, which
instructions may have produced the value in it. Instructions that only copy a value count as the
producers of the copy, and the values that a method starts with have no producer.

Two frames meet slot by slot (`Frame.merge`), and only if their stacks are equally deep. A merge
that changes a frame leaves fewer producers missing from it (`Frame.missing_join_lt`); this is what
ends the computation of the frames of a method.
-/

namespace CallFold

/-- The producers of every local slot, and of every stack slot from the top down. -/
structure Frame where
  locals : List IndexSet
  stack : List IndexSet
deriving DecidableEq

namespace Frame

/-- The frame on entry to a method: no producers, and nothing on the stack. -/
def entry (maxLocals : Nat) : Frame :=
  ⟨List.replicate maxLocals .empty, []⟩

/-- A frame without slots. -/
def blank : Frame := entry 0

/-- The number of values on the stack. -/
def depth (f : Frame) : Nat := f.stack.length

/-- The producers of a local slot. -/
def slot? (f : Frame) (slot : Nat) : Option IndexSet := f.locals[slot]?

/-- The producers of the stack slot that is `below` slots under the top. -/
def peek? (f : Frame) (below : Nat) : Option IndexSet := f.stack[below]?

/-- The producers of the top of the stack. -/
def top? (f : Frame) : Option IndexSet := f.peek? 0

/-- The producers of the stack slot at a position counted from the bottom. -/
def stackAt? (f : Frame) (position : Nat) : Option IndexSet := f.stack.reverse[position]?

/-- The producers of the `count` topmost stack slots, the deepest first. -/
def arguments (f : Frame) (count : Nat) : List IndexSet := (f.stack.take count).reverse

/-- Puts a value on the stack. -/
def push (f : Frame) (producers : IndexSet) : Frame :=
  { f with stack := producers :: f.stack }

/-- The producers of all slots. -/
def slots (f : Frame) : List IndexSet := f.locals ++ f.stack

/-! ## Merging -/

/-- Joins two lists of slots; a slot that only the first list has stays. -/
def joinSlots : List IndexSet → List IndexSet → List IndexSet
  | s :: rest, t :: rest' => s.union t :: joinSlots rest rest'
  | rest, _ => rest

/-- Whether joining the second list into the first would add a producer somewhere. -/
def growsSlots : List IndexSet → List IndexSet → Bool
  | s :: rest, t :: rest' => s.grows t || growsSlots rest rest'
  | _, _ => false

/-- Joins two frames slot by slot. -/
def join (f g : Frame) : Frame :=
  ⟨joinSlots f.locals g.locals, joinSlots f.stack g.stack⟩

/-- Whether joining `g` into `f` would add a producer somewhere. -/
def grows (f g : Frame) : Bool :=
  growsSlots f.locals g.locals || growsSlots f.stack g.stack

/--
Merges `g` into the frame of an instruction: whether that changed the frame, and the frame after it.
Frames whose stacks are not equally deep are not merged.
-/
def merge (f g : Frame) (index : Nat) : Except FrameError Bool × Frame :=
  if f.depth = g.depth then (.ok (f.grows g), f.join g)
  else (.error (.depthMismatch index f.depth g.depth), f)

/-! ## What is still missing -/

/-- Every producer is an instruction index below `n`. -/
def Bounded (n : Nat) (f : Frame) : Prop :=
  ∀ s ∈ f.slots, ∀ i ∈ s, i < n

/-- How many producers below `n` are missing from some slots. -/
def missingSlots (n : Nat) (slots : List IndexSet) : Nat :=
  totalWeight (IndexSet.missing n) slots

/-- How many producers below `n` are missing from the slots of a frame. -/
def missing (n : Nat) (f : Frame) : Nat :=
  missingSlots n f.locals + missingSlots n f.stack

theorem missingSlots_joinSlots_le (n : Nat) (l m : List IndexSet) :
    missingSlots n (joinSlots l m) ≤ missingSlots n l := by
  induction l generalizing m with
  | nil => cases m <;> simp [joinSlots]
  | cons s rest ih =>
    cases m with
    | nil => simp [joinSlots]
    | cons t rest' =>
      have h1 := IndexSet.missing_union_le n s t
      have h2 := ih rest'
      simp only [missingSlots, joinSlots, totalWeight] at h2 ⊢
      omega

theorem missingSlots_joinSlots_lt {n : Nat} {l m : List IndexSet}
    (hg : growsSlots l m = true) (hm : ∀ s ∈ m, ∀ i ∈ s, i < n) :
    missingSlots n (joinSlots l m) < missingSlots n l := by
  induction l generalizing m with
  | nil => cases m <;> simp [growsSlots] at hg
  | cons s rest ih =>
    cases m with
    | nil => simp [growsSlots] at hg
    | cons t rest' =>
      simp only [growsSlots, Bool.or_eq_true] at hg
      simp only [missingSlots, joinSlots, totalWeight]
      rcases hg with hg | hg
      · have h1 := IndexSet.missing_union_lt (n := n) hg (hm t List.mem_cons_self)
        have h2 := missingSlots_joinSlots_le n rest rest'
        simp only [missingSlots] at h2
        omega
      · have h1 := IndexSet.missing_union_le n s t
        have h2 := ih hg fun u hu => hm u (List.mem_cons_of_mem _ hu)
        simp only [missingSlots] at h2
        omega

/-- A merge that changes a frame leaves fewer producers missing. -/
theorem missing_join_lt {n : Nat} {f g : Frame} (hg : f.grows g = true) (hb : g.Bounded n) :
    (f.join g).missing n < f.missing n := by
  have hl : ∀ s ∈ g.locals, ∀ i ∈ s, i < n := fun s hs => hb s (List.mem_append_left _ hs)
  have hs : ∀ s ∈ g.stack, ∀ i ∈ s, i < n := fun s hs => hb s (List.mem_append_right _ hs)
  simp only [grows, Bool.or_eq_true] at hg
  simp only [missing, join]
  rcases hg with hg | hg
  · have h1 := missingSlots_joinSlots_lt hg hl
    have h2 := missingSlots_joinSlots_le n f.stack g.stack
    omega
  · have h1 := missingSlots_joinSlots_lt hg hs
    have h2 := missingSlots_joinSlots_le n f.locals g.locals
    omega

theorem bounded_joinSlots {n : Nat} {l m : List IndexSet} (hl : ∀ s ∈ l, ∀ i ∈ s, i < n)
    (hm : ∀ s ∈ m, ∀ i ∈ s, i < n) : ∀ s ∈ joinSlots l m, ∀ i ∈ s, i < n := by
  induction l generalizing m with
  | nil => cases m <;> simp [joinSlots]
  | cons s rest ih =>
    cases m with
    | nil => simpa [joinSlots] using hl
    | cons t rest' =>
      intro u hu i hi
      rw [joinSlots, List.mem_cons] at hu
      rcases hu with rfl | hu
      · rcases IndexSet.mem_union.mp hi with hi | hi
        · exact hl s List.mem_cons_self i hi
        · exact hm t List.mem_cons_self i hi
      · exact ih (fun v hv => hl v (List.mem_cons_of_mem _ hv))
          (fun v hv => hm v (List.mem_cons_of_mem _ hv)) u hu i hi

theorem bounded_join {n : Nat} {f g : Frame} (hf : f.Bounded n) (hg : g.Bounded n) :
    (f.join g).Bounded n := by
  intro s hs
  rcases List.mem_append.mp hs with hs | hs
  · exact bounded_joinSlots (fun u hu => hf u (List.mem_append_left _ hu))
      (fun u hu => hg u (List.mem_append_left _ hu)) s hs
  · exact bounded_joinSlots (fun u hu => hf u (List.mem_append_right _ hu))
      (fun u hu => hg u (List.mem_append_right _ hu)) s hs

theorem bounded_entry (n maxLocals : Nat) : (entry maxLocals).Bounded n := by
  intro s hs i hi
  simp only [slots, entry, List.append_nil, List.mem_replicate] at hs
  rw [hs.2] at hi
  exact absurd hi IndexSet.not_mem_empty

end Frame

end CallFold
