import CallFold.FrameGraph.Edges
import CallFold.Proofs.ControlFlow

/-!
# What the tables of edges hold

The table of successors holds the edges out of the instructions whose edges were recorded, and the
table of predecessors holds the same edges the other way round (`Edges.Tabulates`). It is so before
anything is recorded, and to record the edges of one more instruction keeps it so.
-/

namespace CallFold.Edges

/-- The tables hold the edges out of the recorded instructions of a method, and no others. -/
structure Tabulates (m : MethodBody) (e : Edges) : Prop where
  capacity : e.recorded.capacity = m.length
  size_successors : e.successors.size = m.length
  size_predecessors : e.predecessors.size = m.length
  successors : ∀ i j, j ∈ e.successorsOf i ↔ e.recorded.contains i = true ∧ m.Edge i j
  predecessors : ∀ i j, i ∈ e.predecessorsOf j ↔ j ∈ e.successorsOf i

variable {m : MethodBody} {e : Edges} {source : Nat} {targets : List Nat}

theorem getD_replicate_nil (length index : Nat) :
    (Array.replicate length ([] : List Nat)).getD index [] = [] := by
  rw [Array.getD_eq_getD_getElem?, Array.getElem?_replicate]
  split <;> rfl

theorem tabulates_none (m : MethodBody) : Tabulates m (none m.length) where
  capacity := rfl
  size_successors := Array.size_replicate
  size_predecessors := Array.size_replicate
  successors := by
    intro i j
    show j ∈ (Array.replicate m.length []).getD i [] ↔ (BitSet.empty m.length).contains i = true ∧ _
    rw [getD_replicate_nil, BitSet.contains_empty]
    simp
  predecessors := by
    intro i j
    show i ∈ (Array.replicate m.length []).getD j [] ↔ j ∈ (Array.replicate m.length []).getD i []
    rw [getD_replicate_nil, getD_replicate_nil]
    simp

theorem record_of_recorded (h : e.recorded.contains source = true) :
    e.record source targets = e := by
  have hpresent : (e.recorded.insert source).1 = false := by
    rw [BitSet.insert_fst, h, Bool.not_true, Bool.and_false]
  unfold record
  split
  · next hinsert =>
    rw [hinsert] at hpresent
    cases hpresent
  · rfl

theorem record_of_fresh (hsource : source < e.recorded.capacity)
    (h : e.recorded.contains source = false) :
    e.record source targets =
      { successors := e.successors.setIfInBounds source targets
        predecessors := enter source e.predecessors targets
        recorded := (e.recorded.insert source).2 } := by
  have habsent : (e.recorded.insert source).1 = true := by
    rw [BitSet.insert_fst, h, decide_eq_true hsource]
    rfl
  unfold record
  split
  · next hinsert => rw [hinsert]
  · next hinsert =>
    rw [hinsert] at habsent
    cases habsent

/-- After a record, the instruction is recorded, and so are those that were before. -/
theorem contains_recorded_record (hsource : source < e.recorded.capacity) (i : Nat) :
    (e.record source targets).recorded.contains i =
      (decide (i = source) || e.recorded.contains i) := by
  cases hrecorded : e.recorded.contains source with
  | true =>
    rw [record_of_recorded hrecorded]
    by_cases hi : i = source
    · simp [hi, hrecorded]
    · simp [hi]
  | false =>
    rw [record_of_fresh hsource hrecorded]
    exact BitSet.contains_insert e.recorded hsource i

/-- The table of successors changes only for the instruction that is recorded. -/
theorem getD_setIfInBounds {table : Array (List Nat)} (hsource : source < table.size) (i : Nat) :
    (table.setIfInBounds source targets).getD i [] =
      if i = source then targets else table.getD i [] := by
  rw [Array.getD_eq_getD_getElem?, Array.getElem?_setIfInBounds]
  by_cases hi : i = source
  · rw [if_pos hi.symm, if_pos hi, if_pos hsource]
    rfl
  · rw [if_neg (Ne.symm hi), if_neg hi, Array.getD_eq_getD_getElem?]

/-- To record the edges of an instruction, for the first time or again, keeps the tables right. -/
theorem Tabulates.record (h : e.Tabulates m) (hsource : source < m.length)
    (htargets : ∀ j, j ∈ targets ↔ m.Edge source j) (hrange : ∀ j ∈ targets, j < m.length) :
    (e.record source targets).Tabulates m := by
  have hcapacity : source < e.recorded.capacity := h.capacity ▸ hsource
  cases hrecorded : e.recorded.contains source with
  | true => rwa [record_of_recorded hrecorded]
  | false =>
    have hcontains : ∀ i, (e.recorded.insert source).2.contains i = true ↔
        i = source ∨ e.recorded.contains i = true := by
      intro i
      rw [BitSet.contains_insert _ hcapacity, Bool.or_eq_true, decide_eq_true_iff]
    have hedges : ∀ i j, j ∈ (e.successors.setIfInBounds source targets).getD i [] ↔
        (e.recorded.insert source).2.contains i = true ∧ m.Edge i j := by
      intro i j
      rw [getD_setIfInBounds (h.size_successors ▸ hsource), hcontains]
      by_cases hi : i = source
      · rw [if_pos hi, htargets, hi]
        simp
      · have hold : j ∈ e.successors.getD i [] ↔ _ := h.successors i j
        rw [if_neg hi, hold]
        simp [hi]
    rw [record_of_fresh hcapacity hrecorded]
    refine ⟨?_, ?_, ?_, hedges, fun i j => ?_⟩
    · rw [BitSet.capacity_insert, h.capacity]
    · rw [Array.size_setIfInBounds, h.size_successors]
    · rw [size_enter, h.size_predecessors]
    · have hsources : i ∈ e.predecessors.getD j [] ↔ e.recorded.contains i = true ∧ m.Edge i j :=
        (h.predecessors i j).trans (h.successors i j)
      show i ∈ (enter source e.predecessors targets).getD j [] ↔
        j ∈ (e.successors.setIfInBounds source targets).getD i []
      rw [mem_enter_iff fun j hj => h.size_predecessors ▸ hrange j hj, hedges, hcontains, htargets,
        hsources]
      constructor
      · rintro (⟨rfl, hedge⟩ | ⟨hold, hedge⟩)
        · exact ⟨Or.inl rfl, hedge⟩
        · exact ⟨Or.inr hold, hedge⟩
      · rintro ⟨rfl | hold, hedge⟩
        · exact Or.inl ⟨rfl, hedge⟩
        · exact Or.inr ⟨hold, hedge⟩

end CallFold.Edges
