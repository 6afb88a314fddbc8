import CallFold.Proofs.BitSets
import CallFold.Reach

/-!
# Searches are exact

The search for the indices that can be reached from some roots marks exactly these
(`contains_reachable_iff`).
-/

namespace CallFold

/-! ## Searching -/

/-- An index below a bound can be reached from some roots without leaving the bound. -/
inductive Reaches (bound : Nat) (next : Nat → List Nat) (roots : List Nat) : Nat → Prop where
  | root {i : Nat} (h : i ∈ roots) (hlt : i < bound) : Reaches bound next roots i
  | edge {i j : Nat} (h : Reaches bound next roots i) (hj : j ∈ next i) (hlt : j < bound) :
      Reaches bound next roots j

/-- What can be reached from roots that can be reached can be reached. -/
theorem Reaches.trans {bound : Nat} {next : Nat → List Nat} {roots roots' : List Nat} {i : Nat}
    (h : Reaches bound next roots i)
    (hroots : ∀ j ∈ roots, j < bound → Reaches bound next roots' j) :
    Reaches bound next roots' i := by
  induction h with
  | root h hlt => exact hroots _ h hlt
  | edge _ hj hlt ih => exact .edge ih hj hlt

theorem reaches_of_search {next : Nat → List Nat} {marked : BitSet} {pending : List Nat} {j : Nat}
    (h : (search next marked pending).contains j = true) :
    marked.contains j = true ∨ Reaches marked.capacity next pending j := by
  fun_induction search next marked pending with
  | case1 marked => exact Or.inl h
  | case2 marked i rest marked' hinsert ih =>
    have hfst := BitSet.insert_fst marked i
    have hmarked' : marked' = (marked.insert i).2 := by rw [hinsert]
    rw [hinsert, eq_comm, Bool.and_eq_true, decide_eq_true_iff] at hfst
    have hi : Reaches marked.capacity next (i :: rest) i := .root List.mem_cons_self hfst.1
    subst hmarked'
    rw [BitSet.contains_insert _ hfst.1, BitSet.capacity_insert] at ih
    rcases ih h with hold | hnew
    · rcases Bool.or_eq_true _ _ ▸ hold with heq | hold
      · rw [of_decide_eq_true heq]
        exact Or.inr hi
      · exact Or.inl hold
    · refine Or.inr (hnew.trans fun k hk hlt => ?_)
      rcases List.mem_append.mp hk with hk | hk
      · exact .edge hi hk hlt
      · exact .root (List.mem_cons_of_mem _ hk) hlt
  | case3 marked i rest _ _ ih =>
    rcases ih h with hold | hnew
    · exact Or.inl hold
    · exact Or.inr (hnew.trans fun k hk hlt => .root (List.mem_cons_of_mem _ hk) hlt)

/-- The result holds what was marked and pending, and is closed under edges from what it added. -/
theorem search_closed (next : Nat → List Nat) (marked : BitSet) (pending : List Nat) :
    (∀ j, marked.contains j = true → (search next marked pending).contains j = true) ∧
    (∀ j ∈ pending, j < marked.capacity → (search next marked pending).contains j = true) ∧
    (∀ i j, (search next marked pending).contains i = true → marked.contains i = false →
      j ∈ next i → j < marked.capacity → (search next marked pending).contains j = true) := by
  fun_induction search next marked pending with
  | case1 marked =>
    refine ⟨fun j h => h, by simp, fun i j h hno => ?_⟩
    rw [h] at hno
    simp at hno
  | case2 marked i rest marked' hinsert ih =>
    have hfst := BitSet.insert_fst marked i
    have hmarked' : marked' = (marked.insert i).2 := by rw [hinsert]
    rw [hinsert, eq_comm, Bool.and_eq_true, decide_eq_true_iff] at hfst
    subst hmarked'
    simp only [BitSet.contains_insert _ hfst.1, BitSet.capacity_insert, Bool.or_eq_true,
      decide_eq_true_iff] at ih
    obtain ⟨hmarked, hpending, hclosed⟩ := ih
    -- what is marked now has its successors on the list, so the rest of the search marks them
    refine ⟨fun j hj => hmarked j (Or.inr hj), fun j hj hlt => ?_, fun k j hk hno hj hlt => ?_⟩
    · rcases List.mem_cons.mp hj with rfl | hj
      · exact hmarked j (Or.inl rfl)
      · exact hpending j (List.mem_append_right _ hj) hlt
    · by_cases hki : k = i
      · subst hki
        exact hpending j (List.mem_append_left _ hj) hlt
      · exact hclosed k j hk (by simp [hki, hno]) hj hlt
  | case3 marked i rest _ hinsert ih =>
    obtain ⟨hmarked, hpending, hclosed⟩ := ih
    refine ⟨hmarked, fun j hj hlt => ?_, hclosed⟩
    rcases List.mem_cons.mp hj with rfl | hj
    · have hfst := BitSet.insert_fst marked j
      rw [hinsert] at hfst
      exact hmarked j (by simpa [hlt] using hfst)
    · exact hpending j hj hlt

/-- A search marks exactly what can be reached. -/
theorem contains_reachable_iff {bound : Nat} {next : Nat → List Nat} {roots : List Nat} {i : Nat} :
    (reachable bound next roots).contains i = true ↔ Reaches bound next roots i := by
  constructor
  · intro h
    rcases reaches_of_search h with hempty | hreaches
    · rw [BitSet.contains_empty] at hempty
      simp at hempty
    · exact hreaches
  · intro h
    obtain ⟨-, hroots, hclosed⟩ := search_closed next (BitSet.empty bound) roots
    induction h with
    | root h hlt => exact hroots _ h hlt
    | edge _ hj hlt ih => exact hclosed _ _ ih (BitSet.contains_empty _ _) hj hlt

end CallFold
