import CallFold.BitSet

/-!
# Agendas

The instructions that are still to be executed, the next one first. Each has a bit that says whether
it is on the list, so that none is put on it twice. That list and bits agree is part of an agenda.
-/

namespace CallFold

/-- Indices in the order in which they are to be taken, and the bits of those on the list. -/
structure Agenda where
  list : List Nat
  listed : BitSet
  nodup : list.Nodup
  mem_list_iff : ∀ i, i ∈ list ↔ listed.contains i = true

namespace Agenda

/-- Nothing to be taken. -/
def empty (capacity : Nat) : Agenda where
  list := []
  listed := .empty capacity
  nodup := List.nodup_nil
  mem_list_iff := by simp [BitSet.contains_empty]

/-- How many indices have a bit. -/
def capacity (a : Agenda) : Nat := a.listed.capacity

theorem nodup_of_insert {a : Agenda} {i : Nat} {bits : BitSet}
    (h : a.listed.insert i = (true, bits)) : (i :: a.list).Nodup := by
  have habsent : (a.listed.insert i).1 = true := by rw [h]
  rw [BitSet.insert_fst, Bool.and_eq_true, Bool.not_eq_true'] at habsent
  refine List.nodup_cons.mpr ⟨fun hmem => ?_, a.nodup⟩
  rw [a.mem_list_iff, habsent.2] at hmem
  exact Bool.false_ne_true hmem

theorem mem_list_of_insert {a : Agenda} {i : Nat} {bits : BitSet}
    (h : a.listed.insert i = (true, bits)) (j : Nat) :
    j ∈ i :: a.list ↔ bits.contains j = true := by
  have habsent : (a.listed.insert i).1 = true := by rw [h]
  rw [BitSet.insert_fst, Bool.and_eq_true, decide_eq_true_iff] at habsent
  have hbits : bits = (a.listed.insert i).2 := by rw [h]
  rw [hbits, BitSet.contains_insert _ habsent.1, List.mem_cons, a.mem_list_iff, Bool.or_eq_true,
    decide_eq_true_iff]

/-- Puts an index on top of the list, unless it is on the list already or has no bit. -/
def push (a : Agenda) (i : Nat) : Agenda :=
  match h : a.listed.insert i with
  | (true, bits) =>
    { list := i :: a.list
      listed := bits
      nodup := nodup_of_insert h
      mem_list_iff := mem_list_of_insert h }
  | (false, _) => a

/-- Takes an index off the list. -/
def erase (a : Agenda) (i : Nat) : Agenda where
  list := a.list.erase i
  listed := (a.listed.erase i).2
  nodup := a.nodup.erase i
  mem_list_iff := by
    intro j
    rw [a.nodup.mem_erase_iff, a.mem_list_iff, BitSet.contains_erase, Bool.and_eq_true,
      decide_eq_true_iff]

theorem list_push (a : Agenda) (i : Nat) :
    (a.push i).list = if i < a.capacity ∧ i ∉ a.list then i :: a.list else a.list := by
  have hfresh : (a.listed.insert i).1 = true ↔ i < a.capacity ∧ i ∉ a.list := by
    rw [BitSet.insert_fst, Bool.and_eq_true, decide_eq_true_iff, Bool.not_eq_true', a.mem_list_iff,
      Bool.not_eq_true]
    rfl
  unfold push
  split
  · next bits h =>
    rw [h] at hfresh
    rw [if_pos (hfresh.mp rfl)]
  · next bits h =>
    rw [h] at hfresh
    rw [if_neg fun habsent => Bool.false_ne_true (hfresh.mpr habsent)]

@[simp]
theorem capacity_push (a : Agenda) (i : Nat) : (a.push i).capacity = a.capacity := by
  unfold push
  split
  · next bits h =>
    show bits.capacity = a.listed.capacity
    rw [← BitSet.capacity_insert a.listed i, h]
  · rfl

@[simp]
theorem capacity_erase (a : Agenda) (i : Nat) : (a.erase i).capacity = a.capacity :=
  BitSet.capacity_erase a.listed i

/-- What is on the list stays on it. -/
theorem mem_push_of_mem {a : Agenda} {i j : Nat} (h : j ∈ a.list) : j ∈ (a.push i).list := by
  rw [list_push]
  split
  · exact List.mem_cons_of_mem i h
  · exact h

theorem mem_push_self {a : Agenda} {i : Nat} (hi : i < a.capacity) : i ∈ (a.push i).list := by
  rw [list_push]
  split
  · exact List.mem_cons_self
  · next hlisted => exact Classical.byContradiction fun hmem => hlisted ⟨hi, hmem⟩

theorem mem_of_mem_push {a : Agenda} {i j : Nat} (h : j ∈ (a.push i).list) :
    j ∈ a.list ∨ j = i := by
  rw [list_push] at h
  split at h
  · exact (List.mem_cons.mp h).symm
  · exact Or.inl h

theorem length_push_le (a : Agenda) (i : Nat) : (a.push i).list.length ≤ a.list.length + 1 := by
  rw [list_push]
  split
  · exact Nat.le_of_eq rfl
  · exact Nat.le_succ _

end Agenda

end CallFold
