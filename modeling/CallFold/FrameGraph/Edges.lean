import CallFold.BitSet

/-!
# Tables of edges

Where control goes from an instruction and where it comes from, in two tables that are filled while
a method is explored. The edges out of an instruction are recorded when it is executed for the first
time, which a bit remembers.
-/

namespace CallFold

/-- The edges that were recorded so far, by their source and by their target, as they came. -/
structure Edges where
  successors : Array (List Nat)
  predecessors : Array (List Nat)
  recorded : BitSet

namespace Edges

/-- No edges between a number of instructions. -/
def none (length : Nat) : Edges where
  successors := Array.replicate length []
  predecessors := Array.replicate length []
  recorded := .empty length

/-- Enters a source for each of some targets. -/
def enter (source : Nat) (table : Array (List Nat)) (targets : List Nat) : Array (List Nat) :=
  targets.foldl (fun table target => table.modify target (source :: ·)) table

/-- Records the edges out of an instruction, the first time only. -/
def record (e : Edges) (source : Nat) (targets : List Nat) : Edges :=
  match e.recorded.insert source with
  | (true, bits) =>
    { successors := e.successors.setIfInBounds source targets
      predecessors := enter source e.predecessors targets
      recorded := bits }
  | (false, _) => e

/-- The recorded targets of an instruction. -/
def successorsOf (e : Edges) (index : Nat) : List Nat := e.successors.getD index []

/-- The recorded sources of an instruction. -/
def predecessorsOf (e : Edges) (index : Nat) : List Nat := e.predecessors.getD index []

@[simp]
theorem size_enter (source : Nat) (table : Array (List Nat)) (targets : List Nat) :
    (enter source table targets).size = table.size := by
  unfold enter
  induction targets generalizing table with
  | nil => rfl
  | cons target rest ih => rw [List.foldl_cons, ih, Array.size_modify]

/-- A source is entered for the targets and for nothing else. -/
theorem mem_enter_iff {source : Nat} {table : Array (List Nat)} {targets : List Nat}
    (hrange : ∀ target ∈ targets, target < table.size) (i j : Nat) :
    i ∈ (enter source table targets).getD j [] ↔
      i = source ∧ j ∈ targets ∨ i ∈ table.getD j [] := by
  unfold enter
  induction targets generalizing table with
  | nil => simp
  | cons target rest ih =>
    have htarget : target < table.size := hrange target List.mem_cons_self
    have hrest : ∀ t ∈ rest, t < (table.modify target (source :: ·)).size := by
      intro t ht
      rw [Array.size_modify]
      exact hrange t (List.mem_cons_of_mem target ht)
    have hone : i ∈ (table.modify target (source :: ·)).getD j [] ↔
        i = source ∧ j = target ∨ i ∈ table.getD j [] := by
      rw [Array.getD_eq_getD_getElem?, Array.getD_eq_getD_getElem?, Array.getElem?_modify]
      by_cases hj : target = j
      · subst hj
        simp [Array.getElem?_eq_getElem htarget]
      · simp [hj, Ne.symm hj]
    rw [List.foldl_cons, ih hrest, hone, List.mem_cons]
    constructor
    · rintro (⟨rfl, hmem⟩ | ⟨rfl, rfl⟩ | hold)
      · exact Or.inl ⟨rfl, Or.inr hmem⟩
      · exact Or.inl ⟨rfl, Or.inl rfl⟩
      · exact Or.inr hold
    · rintro (⟨rfl, rfl | hmem⟩ | hold)
      · exact Or.inr (Or.inl ⟨rfl, rfl⟩)
      · exact Or.inl ⟨rfl, hmem⟩
      · exact Or.inr (Or.inr hold)

end Edges

end CallFold
