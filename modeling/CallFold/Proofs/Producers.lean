import CallFold.Proofs.ReachingProducers
import CallFold.Proofs.Sources

/-!
# Producers

The frames of a graph that was built name only instructions that can be reached, and each of them
where it can have put something: the producers of a local slot write this slot, those of a stack
slot push (`FrameGraph.WellSourced`). Only a local slot can be without a producer, for only there a
value can have been from the start.
-/

namespace CallFold

/-! ## Filling places -/

/-- The instruction puts something into places of a kind: into a local slot, or on the stack. -/
def Instruction.Fills (i : Instruction) : Place → Prop
  | .slot slot => i.writtenSlot? = some slot
  | .stack _ => 0 < i.pushes

namespace Instruction

variable {i : Instruction} {place old : Place} {slot : Nat}

theorem writtenSlot?_eq_some_iff :
    i.writtenSlot? = some slot ↔ i = .store slot ∨ ∃ delta, i = .increment slot delta := by
  cases i <;> simp [writtenSlot?]

theorem fills_of_before_eq_none (h : i.before place = none) : i.Fills place := by
  cases place with
  | slot slot => exact before_slot_eq_none_iff.mp h
  | stack below =>
    have hlt : below < i.filled := before_stack_eq_none_iff.mp h
    have hle : i.filled ≤ i.pushes := by cases i <;> simp [filled, pushes]
    exact Nat.zero_lt_of_lt (Nat.lt_of_lt_of_le hlt hle)

/-- What was in a place before an instruction was in a place of the same kind. -/
theorem fills_of_before {writer : Instruction} (h : i.before place = some old)
    (hfills : writer.Fills old) : writer.Fills place := by
  cases place with
  | slot slot =>
    obtain ⟨-, rfl⟩ := before_slot_eq_some_iff.mp h
    exact hfills
  | stack below =>
    obtain ⟨-, rfl⟩ := before_stack_eq_some_iff.mp h
    exact hfills

end Instruction

/-- The last producer of a place is on the trail, and it fills places of this kind. -/
theorem MethodBody.fills_of_lastProducers {m : MethodBody} {trail : List Nat} {i p : Nat}
    {place : Place} (h : m.Path trail i)
    (hlast : (m.lastProducers trail).get? place = some (some p)) :
    p ∈ trail ∧ ∃ instruction, m.code[p]? = some instruction ∧ instruction.Fills place := by
  induction h generalizing place with
  | entry _ =>
    cases place with
    | slot slot => simp [lastProducers, Slots.get?, List.getElem?_replicate] at hlast
    | stack below => simp [lastProducers, Slots.get?] at hlast
  | @step trail i j hpath _ _ ih =>
    obtain ⟨instruction, hcode⟩ := exists_code hpath.lt_length
    rw [lastProducers_cons hcode] at hlast
    cases hbefore : instruction.before place with
    | none =>
      obtain rfl : p = i := by
        rcases Slots.get?_change_of_new List.length_replicate hbefore hlast with ⟨-, heq⟩ | hmem
        · exact Option.some.inj heq
        · exact Option.some.inj (List.eq_of_mem_replicate hmem)
      exact ⟨List.mem_cons_self, instruction, hcode,
        Instruction.fills_of_before_eq_none hbefore⟩
    | some old =>
      rw [Slots.get?_change_of_before List.length_replicate hbefore] at hlast
      obtain ⟨hmem, writer, hwriter, hfills⟩ := ih hlast
      exact ⟨List.mem_cons_of_mem i hmem, writer, hwriter,
        Instruction.fills_of_before hbefore hfills⟩

/-! ## Producers in frames -/

namespace FrameGraph

/-- A set of producers is in a place of some frame. -/
def Occurs (g : FrameGraph) (value : IndexSet) : Prop :=
  ∃ i f place, g.frame? i = some f ∧ f.view.get? place = some value

/--
Every producer in a frame can be reached. Those of a local slot write that slot, those of a stack
slot push something, and every stack slot has one.
-/
structure WellSourced (g : FrameGraph) : Prop where
  slot : ∀ i f slot value p, g.frame? i = some f → f.slot? slot = some value → p ∈ value →
    g.isReachable p = true ∧ (g.instruction? p = some (.store slot) ∨
      ∃ delta, g.instruction? p = some (.increment slot delta))
  stack : ∀ i f below value p, g.frame? i = some f → f.peek? below = some value → p ∈ value →
    g.isReachable p = true ∧
      ∃ instruction, g.instruction? p = some instruction ∧ 0 < instruction.pushes
  stack_nonempty : ∀ i f below value, g.frame? i = some f → f.peek? below = some value →
    value.isEmpty = false

variable {g : FrameGraph} {i p : Nat} {f : Frame} {place : Place} {value : IndexSet}

/-- A producer in a frame can be reached, and it fills places of the kind where it is found. -/
theorem Solved.exists_node_of_mem (hg : g.Solved) (hf : g.frame? i = some f)
    (hvalue : f.view.get? place = some value) (hp : p ∈ value) :
    ∃ instruction fp, g.node? p = some (instruction, fp) ∧ instruction.Fills place := by
  obtain ⟨trail, hpath, hlast⟩ := (hg.mem_iff hf place hvalue p).mp hp
  obtain ⟨hmem, instruction, hcode, hfills⟩ := MethodBody.fills_of_lastProducers hpath hlast
  obtain ⟨later, earlier, rfl⟩ := List.append_of_mem hmem
  obtain ⟨fp, hfp, -⟩ := hg.covers hpath.of_append
  exact ⟨instruction, fp, node?_eq_some_iff.mpr ⟨hcode, hfp⟩, hfills⟩

/-- Only a local slot can be without a producer. -/
theorem Solved.exists_mem_of_stack (hg : g.Solved) (hf : g.frame? i = some f) {below : Nat}
    (hvalue : f.view.get? (.stack below) = some value) : ∃ p, p ∈ value := by
  obtain ⟨trail, hpath, -⟩ := (hg.justified i f hf).arrival
  rcases hg.exists_producer hpath.path hf hvalue with ⟨-, slot, -, heq⟩ | ⟨p, hp, -⟩
  · simp at heq
  · exact ⟨p, hp⟩

theorem Solved.wellSourced (hg : g.Solved) : g.WellSourced where
  slot i f slot value p hf hvalue hp := by
    have hget : f.view.get? (.slot slot) = some value := hvalue
    obtain ⟨instruction, fp, hnode, hfills⟩ := hg.exists_node_of_mem hf hget hp
    obtain ⟨hi, hfp⟩ := node?_eq_some_iff.mp hnode
    refine ⟨by simp [isReachable, hfp], ?_⟩
    rcases Instruction.writtenSlot?_eq_some_iff.mp hfills with rfl | ⟨delta, rfl⟩
    · exact Or.inl hi
    · exact Or.inr ⟨delta, hi⟩
  stack i f below value p hf hvalue hp := by
    have hget : f.view.get? (.stack below) = some value := hvalue
    obtain ⟨instruction, fp, hnode, hfills⟩ := hg.exists_node_of_mem hf hget hp
    obtain ⟨hi, hfp⟩ := node?_eq_some_iff.mp hnode
    exact ⟨by simp [isReachable, hfp], instruction, hi, hfills⟩
  stack_nonempty i f below value hf hvalue := by
    have hget : f.view.get? (.stack below) = some value := hvalue
    obtain ⟨p, hp⟩ := hg.exists_mem_of_stack hf hget
    exact List.isEmpty_eq_false_iff_exists_mem.mpr ⟨p, hp⟩

end FrameGraph

end CallFold
