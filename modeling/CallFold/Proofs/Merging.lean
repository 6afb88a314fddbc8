import CallFold.Proofs.Transfer
import Mathlib

/-!
# Merging frames is a join

A merge of two frames with equally many local slots and equally deep stacks is their least upper
bound: every slot holds the union of the two sets, sorted and without repetition. So it does not
matter in which order frames are merged, nor how often. The answer of a merge says exactly whether
the frame is another one than before, and a merge that fails leaves the frame as it is
(`Frame.merge_is_join`).

All of this comes from laws of the union of two sets, carried from slot to slot.
-/

namespace CallFold

/-! ## Unions -/

namespace IndexSet

variable {s t : IndexSet}

/-- The list of a set is its members in order. -/
theorem toList_eq_sort {members : Finset Nat} (h : ∀ i, i ∈ s ↔ i ∈ members) :
    s.toList = members.sort (· ≤ ·) := by
  refine eq_of_ascending s.ascending (Finset.sortedLT_sort members).pairwise fun i => ?_
  rw [Finset.mem_sort, ← h, mem_def]

theorem toList_ofList (l : List Nat) : (ofList l).toList = l.toFinset.sort (· ≤ ·) :=
  toList_eq_sort fun i => by rw [mem_ofList, List.mem_toFinset]

theorem toList_union (s t : IndexSet) :
    (s.union t).toList = (s.toList.toFinset ∪ t.toList.toFinset).sort (· ≤ ·) :=
  toList_eq_sort fun i => by
    rw [mem_union, Finset.mem_union, List.mem_toFinset, List.mem_toFinset, mem_def, mem_def]

theorem union_self (s : IndexSet) : s.union s = s :=
  ext_mem fun i => by rw [mem_union, or_self]

theorem union_comm (s t : IndexSet) : s.union t = t.union s :=
  ext_mem fun i => by rw [mem_union, mem_union, or_comm]

theorem union_assoc (s t u : IndexSet) : (s.union t).union u = s.union (t.union u) :=
  ext_mem fun i => by rw [mem_union, mem_union, mem_union, mem_union, or_assoc]

end IndexSet

/-! ## Slots -/

namespace Frame

theorem length_joinSlots (l m : List IndexSet) : (joinSlots l m).length = l.length :=
  forall₂_joinSlots_left.length_eq.symm

theorem getElem?_joinSlots {l m : List IndexSet} {k : Nat} {s t : IndexSet} (hs : l[k]? = some s)
    (ht : m[k]? = some t) : (joinSlots l m)[k]? = some (s.union t) := by
  induction l generalizing m k with
  | nil => simp at hs
  | cons s' rest ih =>
    cases m with
    | nil => simp at ht
    | cons t' rest' =>
      cases k with
      | zero =>
        obtain rfl : s' = s := by simpa using hs
        obtain rfl : t' = t := by simpa using ht
        rfl
      | succ k => exact ih hs ht

theorem joinSlots_self (l : List IndexSet) : joinSlots l l = l := by
  induction l with
  | nil => rfl
  | cons s rest ih => rw [joinSlots, IndexSet.union_self, ih]

theorem joinSlots_comm {l m : List IndexSet} (h : l.length = m.length) :
    joinSlots l m = joinSlots m l := by
  induction l generalizing m with
  | nil => rw [List.eq_nil_of_length_eq_zero h.symm]
  | cons s rest ih =>
    cases m with
    | nil => simp at h
    | cons t rest' => rw [joinSlots, joinSlots, IndexSet.union_comm, ih (Nat.succ.inj h)]

theorem joinSlots_assoc {l m n : List IndexSet} (h : l.length = m.length)
    (h' : m.length = n.length) :
    joinSlots (joinSlots l m) n = joinSlots l (joinSlots m n) := by
  induction l generalizing m n with
  | nil =>
    obtain rfl := List.eq_nil_of_length_eq_zero h.symm
    obtain rfl := List.eq_nil_of_length_eq_zero h'.symm
    rfl
  | cons s rest ih =>
    cases m with
    | nil => simp at h
    | cons t rest' =>
      cases n with
      | nil => simp at h'
      | cons u rest'' =>
        rw [joinSlots, joinSlots, joinSlots, joinSlots, IndexSet.union_assoc,
          ih (Nat.succ.inj h) (Nat.succ.inj h')]

/-- Slots are said to grow exactly if joining changes one of them. -/
theorem growsSlots_eq_true_iff {l m : List IndexSet} :
    growsSlots l m = true ↔ joinSlots l m ≠ l := by
  induction l generalizing m with
  | nil => cases m <;> simp [growsSlots, joinSlots]
  | cons s rest ih =>
    cases m with
    | nil => simp [growsSlots, joinSlots]
    | cons t rest' =>
      rw [growsSlots, joinSlots, Bool.or_eq_true, IndexSet.grows_eq_true_iff_union_ne, ih, ne_eq,
        ne_eq, ne_eq, List.cons.injEq, not_and_or]

theorem forall₂_joinSlots_le {l m n : List IndexSet} (hl : List.Forall₂ (· ⊆ ·) l n)
    (hm : List.Forall₂ (· ⊆ ·) m n) : List.Forall₂ (· ⊆ ·) (joinSlots l m) n := by
  induction hl generalizing m with
  | nil =>
    cases hm
    exact List.Forall₂.nil
  | cons hs _ ih =>
    cases hm with
    | cons ht hrest =>
      refine List.Forall₂.cons (fun i hi => ?_) (ih hrest)
      rcases IndexSet.mem_union.mp hi with hi | hi
      · exact hs i hi
      · exact ht i hi

/-! ## Frames -/

variable {f g h : Frame}

theorem length_locals_join (f g : Frame) : (f.join g).locals.length = f.locals.length :=
  length_joinSlots f.locals g.locals

theorem depth_join (f g : Frame) : (f.join g).depth = f.depth :=
  length_joinSlots f.stack g.stack

theorem join_self (f : Frame) : f.join f = f := by
  rw [join, joinSlots_self, joinSlots_self]

theorem join_comm (hl : f.locals.length = g.locals.length) (hd : f.depth = g.depth) :
    f.join g = g.join f := by
  rw [join, join, joinSlots_comm hl, joinSlots_comm hd]

theorem join_assoc (hl : f.locals.length = g.locals.length) (hd : f.depth = g.depth)
    (hl' : g.locals.length = h.locals.length) (hd' : g.depth = h.depth) :
    (f.join g).join h = f.join (g.join h) := by
  simp only [join]
  rw [joinSlots_assoc hl hl', joinSlots_assoc hd hd']

/-- A frame is said to grow exactly if it becomes another one. -/
theorem grows_eq_true_iff : f.grows g = true ↔ f.join g ≠ f := by
  rw [grows, Bool.or_eq_true, growsSlots_eq_true_iff, growsSlots_eq_true_iff, ← not_and_or, ne_eq,
    not_iff_not]
  cases f
  simp [join]

theorem merge_of_depth_eq (index : Nat) (hd : f.depth = g.depth) :
    f.merge g index = (.ok (f.grows g), f.join g) :=
  merge_eq_ok_iff.mpr ⟨hd, rfl, rfl⟩

/-- A frame is the least upper bound of two others, with a sorted union in every slot. -/
structure IsJoin (f g merged : Frame) : Prop where
  length_locals : merged.locals.length = f.locals.length
  depth : merged.depth = f.depth
  slot : ∀ place s t, f.view.get? place = some s → g.view.get? place = some t →
    ∃ u, merged.view.get? place = some u ∧
      u.toList = (s.toList.toFinset ∪ t.toList.toFinset).sort (· ≤ ·)
  above_left : f.Below merged
  above_right : g.Below merged
  least : ∀ bound, f.Below bound → g.Below bound → merged.Below bound

theorem isJoin_join (hl : f.locals.length = g.locals.length) (hd : f.depth = g.depth) :
    IsJoin f g (f.join g) where
  length_locals := length_locals_join f g
  depth := depth_join f g
  slot := by
    intro place s t hs ht
    refine ⟨s.union t, ?_, IndexSet.toList_union s t⟩
    cases place with
    | slot index => exact getElem?_joinSlots hs ht
    | stack below => exact getElem?_joinSlots hs ht
  above_left := below_join_left f g
  above_right := below_join_right hl hd
  least := fun _ hf hg =>
    ⟨forall₂_joinSlots_le hf.locals hg.locals, forall₂_joinSlots_le hf.stack hg.stack⟩

/--
Merging frames is a join, its answer is exact and its failure changes nothing. The sets in the slots
stay sorted and without repetition however they are made, and a search in such a list is exact.
-/
theorem merge_is_join (index : Nat) (hl : f.locals.length = g.locals.length)
    (hl' : g.locals.length = h.locals.length) :
    (f.depth ≠ g.depth →
      f.merge g index = (.error (.depthMismatch index f.depth g.depth), f)) ∧
    (f.depth = g.depth → ∃ changed merged, f.merge g index = (.ok changed, merged) ∧
      IsJoin f g merged ∧ (changed = true ↔ merged ≠ f)) ∧
    f.merge f index = (.ok false, f) ∧
    (f.depth = g.depth → (f.merge g index).2 = (g.merge f index).2) ∧
    (f.depth = g.depth → g.depth = h.depth →
      ((f.merge g index).2.merge h index).2 = (f.merge (g.merge h index).2 index).2) ∧
    (∀ i, (IndexSet.singleton i).toList = [i]) ∧
    (∀ l, (IndexSet.ofList l).toList = l.toFinset.sort (· ≤ ·)) ∧
    (∀ l m, l.Pairwise (· < ·) →
      (insertAll l m).Pairwise (· < ·) ∧ ∀ i, i ∈ insertAll l m ↔ i ∈ l ∨ i ∈ m) ∧
    (∀ l i, l.Pairwise (· < ·) → (searchAscending i l = true ↔ i ∈ l)) := by
  refine ⟨fun hd => merge_eq_error_iff.mpr ⟨hd, rfl, rfl⟩, fun hd => ?_, ?_, fun hd => ?_,
    fun hd hd' => ?_, fun i => rfl, IndexSet.toList_ofList, fun l m hsorted => ?_,
    fun l i hsorted => searchAscending_eq_true_iff hsorted⟩
  · exact ⟨f.grows g, f.join g, merge_of_depth_eq index hd, isJoin_join hl hd, grows_eq_true_iff⟩
  · have hsame : f.grows f = false := by
      rw [← Bool.not_eq_true, grows_eq_true_iff, join_self]
      exact fun hne => hne rfl
    rw [merge_of_depth_eq index rfl, hsame, join_self]
  · rw [merge_of_depth_eq index hd, merge_of_depth_eq index hd.symm]
    exact join_comm hl hd
  · have hleft : (f.join g).depth = h.depth := (depth_join f g).trans (hd.trans hd')
    have hright : f.depth = (g.join h).depth := hd.trans (depth_join g h).symm
    rw [merge_of_depth_eq index hd, merge_of_depth_eq index hd', merge_of_depth_eq index hleft,
      merge_of_depth_eq index hright]
    exact join_assoc hl hd hl' hd'
  · exact ⟨pairwise_insertAll hsorted, fun i => mem_insertAll⟩

/-- A frame at the end of one branch of a condition. -/
def thenBranch : Frame := ⟨[.ofList [4, 1], .empty], [.singleton 6]⟩

/-- The frame at the end of the other branch. -/
def elseBranch : Frame := ⟨[.ofList [2, 4], .singleton 3], [.singleton 5]⟩

/-- The frame where the branches meet. -/
def afterBranches : Frame := ⟨[.ofList [1, 2, 4], .singleton 3], [.ofList [5, 6]]⟩

theorem merge_is_join_branches :
    thenBranch.locals.length = elseBranch.locals.length ∧
    thenBranch.merge elseBranch 7 = (.ok true, afterBranches) ∧
    IsJoin thenBranch elseBranch afterBranches := by
  have hlength : thenBranch.locals.length = elseBranch.locals.length := rfl
  have hread : thenBranch.merge elseBranch 7 = (.ok true, afterBranches) := rfl
  obtain ⟨-, hjoin, -⟩ := merge_is_join 7 hlength hlength.symm
  obtain ⟨changed, merged, hmerge, hisJoin, -⟩ := hjoin rfl
  obtain ⟨-, rfl⟩ := Prod.mk.inj (hread.symm.trans hmerge)
  exact ⟨hlength, hread, hisJoin⟩

end Frame

end CallFold
