import CallFold.Counting

/-!
# Sets of instruction indices

A finite set of instruction indices, listed ascending and without repetition. Such a set is the
provenance of a value: the instructions that may have produced it. It is also how the successors of
an instruction are listed.

An index is looked up by bisection. A union puts the indices of one set into the list of the other,
one after the other, and each of these look-ups relies on the order that the insertions before it
have kept (`pairwise_insertAll`).

Sets are equal exactly when they have the same members (`IndexSet.ext_mem`), so the laws of the
union follow from what its members are (`IndexSet.mem_union`).
-/

namespace CallFold

/-! ## Ascending lists -/

/-- Where a search ends: where the index stands, or where it would have to stand. -/
inductive Spot where
  | found (position : Nat)
  | missing (position : Nat)
deriving DecidableEq

/-- Looks for an index between two positions of an ascending list, halving what is between them. -/
@[semireducible]
def bisect (l : List Nat) (i low high : Nat) (h : high ≤ l.length) : Spot :=
  if hlt : low < high then
    let middle := low + (high - low) / 2
    have : middle < l.length := by omega
    if l[middle] = i then .found middle
    else if l[middle] < i then bisect l i (middle + 1) high h
    else bisect l i low middle (by omega)
  else .missing low
termination_by high - low

/-- Looks for an index in an ascending list. -/
def locate (l : List Nat) (i : Nat) : Spot :=
  bisect l i 0 l.length (Nat.le_refl _)

/-- Puts an index into its place in an ascending list, unless it is there. -/
def insertAscending (i : Nat) (l : List Nat) : List Nat :=
  match locate l i with
  | .found _ => l
  | .missing position => l.insertIdx position i

/-- Puts indices into an ascending list, one after the other. -/
def insertAll (l : List Nat) : List Nat → List Nat
  | [] => l
  | i :: rest => insertAll (insertAscending i l) rest

/-- Whether an index is found in an ascending list. -/
def searchAscending (i : Nat) (l : List Nat) : Bool :=
  match locate l i with
  | .found _ => true
  | .missing _ => false

theorem ascending_iff {l : List Nat} :
    l.Pairwise (· < ·) ↔
      ∀ {k k' j j' : Nat}, k < k' → l[k]? = some j → l[k']? = some j' → j < j' := by
  rw [List.pairwise_iff_getElem]
  constructor
  · intro h k k' j j' hlt hj hj'
    obtain ⟨hk, rfl⟩ := List.getElem?_eq_some_iff.mp hj
    obtain ⟨hk', rfl⟩ := List.getElem?_eq_some_iff.mp hj'
    exact h k k' hk hk' hlt
  · intro h k k' hk hk' hlt
    exact h hlt (List.getElem?_eq_getElem hk) (List.getElem?_eq_getElem hk')

/-- What is found is there, whether the list ascends or not. -/
theorem getElem?_of_bisect {l : List Nat} {i low high position : Nat} {h : high ≤ l.length}
    (hfound : bisect l i low high h = .found position) : l[position]? = some i := by
  fun_induction bisect l i low high h with
  | case1 low high h hlt middle hmiddle heq =>
    rw [← Spot.found.inj hfound, List.getElem?_eq_getElem hmiddle, heq]
  | case2 _ _ _ _ _ _ _ _ ih => exact ih hfound
  | case3 _ _ _ _ _ _ _ _ ih => exact ih hfound
  | case4 => simp at hfound

/-- A position is between what is below an index and what is above it. -/
structure Splits (l : List Nat) (i position : Nat) : Prop where
  below : ∀ (k j : Nat), k < position → l[k]? = some j → j < i
  above : ∀ (k j : Nat), position ≤ k → l[k]? = some j → i < j

/--
The window only loses what is below the index on its left and what is above it on its right. Where
nothing is left of it, the list splits.
-/
theorem splits_of_bisect {l : List Nat} {i low high position : Nat} {h : high ≤ l.length}
    (hl : l.Pairwise (· < ·)) (hle : low ≤ high)
    (hbelow : ∀ (k j : Nat), k < low → l[k]? = some j → j < i)
    (habove : ∀ (k j : Nat), high ≤ k → l[k]? = some j → i < j)
    (hmissing : bisect l i low high h = .missing position) : Splits l i position := by
  fun_induction bisect l i low high h with
  | case1 => simp at hmissing
  | case2 low high h hwindow middle hmiddle hne hsmall ih =>
    refine ih (by omega) (fun k j hk hj => ?_) habove hmissing
    rcases Nat.lt_or_ge k middle with hk | hk
    · have := ascending_iff.mp hl hk hj (List.getElem?_eq_getElem hmiddle)
      omega
    · obtain rfl : k = middle := by omega
      obtain ⟨_, rfl⟩ := List.getElem?_eq_some_iff.mp hj
      exact hsmall
  | case3 low high h hwindow middle hmiddle hne hlarge ih =>
    refine ih (by omega) hbelow (fun k j hk hj => ?_) hmissing
    rcases Nat.lt_or_ge middle k with hk | hk
    · have := ascending_iff.mp hl hk (List.getElem?_eq_getElem hmiddle) hj
      omega
    · obtain rfl : k = middle := by omega
      obtain ⟨_, rfl⟩ := List.getElem?_eq_some_iff.mp hj
      omega
  | case4 low high h hempty =>
    obtain rfl := Spot.missing.inj hmissing
    obtain rfl : low = high := by omega
    exact ⟨hbelow, habove⟩

theorem le_length_of_bisect {l : List Nat} {i low high position : Nat} {h : high ≤ l.length}
    (hle : low ≤ high) (hmissing : bisect l i low high h = .missing position) :
    position ≤ l.length := by
  fun_induction bisect l i low high h with
  | case1 => simp at hmissing
  | case2 low high h hwindow middle _ _ _ ih => exact ih (by omega) hmissing
  | case3 low high h hwindow middle _ _ _ ih => exact ih (by omega) hmissing
  | case4 low high h _ =>
    obtain rfl := Spot.missing.inj hmissing
    omega

theorem mem_of_locate {l : List Nat} {i position : Nat} (h : locate l i = .found position) :
    i ∈ l :=
  List.mem_of_getElem? (getElem?_of_bisect h)

theorem splits_of_locate {l : List Nat} {i position : Nat} (hl : l.Pairwise (· < ·))
    (h : locate l i = .missing position) : Splits l i position :=
  splits_of_bisect hl (Nat.zero_le _) (by omega) (fun k j hk hj => by simp [hk] at hj) h

theorem Splits.not_mem {l : List Nat} {i position : Nat} (h : Splits l i position) : i ∉ l := by
  intro hi
  obtain ⟨k, hk⟩ := List.mem_iff_getElem?.mp hi
  rcases Nat.lt_or_ge k position with hlt | hge
  · exact Nat.lt_irrefl i (h.below k i hlt hk)
  · exact Nat.lt_irrefl i (h.above k i hge hk)

/-- An index that is put where an ascending list splits leaves the list ascending. -/
theorem Splits.pairwise_insertIdx {l : List Nat} {i position : Nat} (h : Splits l i position)
    (hl : l.Pairwise (· < ·)) : (l.insertIdx position i).Pairwise (· < ·) := by
  have hself : ∀ j, (l.insertIdx position i)[position]? = some j → j = i := by
    intro j hj
    rw [List.getElem?_insertIdx_self] at hj
    split at hj
    · exact (Option.some.inj hj).symm
    · simp at hj
  refine ascending_iff.mpr fun {k k' j j'} hlt hj hj' => ?_
  rcases Nat.lt_trichotomy k' position with hk' | rfl | hk'
  · rw [List.getElem?_insertIdx_of_lt hk'] at hj'
    rw [List.getElem?_insertIdx_of_lt (Nat.lt_trans hlt hk')] at hj
    exact ascending_iff.mp hl hlt hj hj'
  · rw [List.getElem?_insertIdx_of_lt hlt] at hj
    rw [hself j' hj']
    exact h.below k j hlt hj
  · rw [List.getElem?_insertIdx_of_gt hk'] at hj'
    rcases Nat.lt_trichotomy k position with hk | rfl | hk
    · rw [List.getElem?_insertIdx_of_lt hk] at hj
      exact ascending_iff.mp hl (by omega) hj hj'
    · rw [hself j hj]
      exact h.above (k' - 1) j' (by omega) hj'
    · rw [List.getElem?_insertIdx_of_gt hk] at hj
      exact ascending_iff.mp hl (by omega) hj hj'

theorem mem_insertAscending {i j : Nat} {l : List Nat} :
    j ∈ insertAscending i l ↔ j = i ∨ j ∈ l := by
  unfold insertAscending
  split
  · next position hfound =>
    refine ⟨Or.inr, ?_⟩
    rintro (rfl | hj)
    · exact mem_of_locate hfound
    · exact hj
  · next position hmissing =>
    exact List.mem_insertIdx (le_length_of_bisect (Nat.zero_le _) hmissing)

theorem pairwise_insertAscending {i : Nat} {l : List Nat} (h : l.Pairwise (· < ·)) :
    (insertAscending i l).Pairwise (· < ·) := by
  unfold insertAscending
  split
  · exact h
  · next position hmissing => exact (splits_of_locate h hmissing).pairwise_insertIdx h

theorem searchAscending_eq_true_iff {i : Nat} {l : List Nat} (h : l.Pairwise (· < ·)) :
    searchAscending i l = true ↔ i ∈ l := by
  unfold searchAscending
  split
  · next position hfound => simp [mem_of_locate hfound]
  · next position hmissing => simp [(splits_of_locate h hmissing).not_mem]

theorem length_insertAscending_of_not_mem {i : Nat} {l : List Nat} (h : i ∉ l) :
    (insertAscending i l).length = l.length + 1 := by
  unfold insertAscending
  split
  · next position hfound => exact absurd (mem_of_locate hfound) h
  · next position hmissing =>
    exact List.length_insertIdx_of_le_length (le_length_of_bisect (Nat.zero_le _) hmissing) _

theorem insertAscending_of_mem {i : Nat} {l : List Nat} (hl : l.Pairwise (· < ·)) (h : i ∈ l) :
    insertAscending i l = l := by
  unfold insertAscending
  split
  · rfl
  · next position hmissing => exact absurd h (splits_of_locate hl hmissing).not_mem

theorem mem_insertAll {i : Nat} {l m : List Nat} : i ∈ insertAll l m ↔ i ∈ l ∨ i ∈ m := by
  induction m generalizing l with
  | nil => simp [insertAll]
  | cons j rest ih =>
    rw [insertAll, ih, mem_insertAscending, List.mem_cons, or_comm (a := i = j), or_assoc]

/-- Every insertion leaves the list ascending for the searches that come after it. -/
theorem pairwise_insertAll {l m : List Nat} (h : l.Pairwise (· < ·)) :
    (insertAll l m).Pairwise (· < ·) := by
  induction m generalizing l with
  | nil => exact h
  | cons i rest ih => exact ih (pairwise_insertAscending h)

theorem length_le_insertAll {l m : List Nat} (h : l.Pairwise (· < ·)) :
    l.length ≤ (insertAll l m).length := by
  induction m generalizing l with
  | nil => exact Nat.le_refl _
  | cons i rest ih =>
    refine Nat.le_trans ?_ (ih (pairwise_insertAscending h))
    by_cases hi : i ∈ l
    · exact Nat.le_of_eq (congrArg List.length (insertAscending_of_mem h hi).symm)
    · rw [length_insertAscending_of_not_mem hi]
      exact Nat.le_succ _

/-- A list is as long as before exactly if everything that was put into it was there. -/
theorem length_insertAll_eq_iff {l m : List Nat} (h : l.Pairwise (· < ·)) :
    (insertAll l m).length = l.length ↔ ∀ i ∈ m, i ∈ l := by
  induction m generalizing l with
  | nil => simp [insertAll]
  | cons i rest ih =>
    rw [insertAll]
    by_cases hi : i ∈ l
    · rw [insertAscending_of_mem h hi, ih h]
      simp [hi]
    · have hle := length_le_insertAll (m := rest) (pairwise_insertAscending (i := i) h)
      have hlength := length_insertAscending_of_not_mem hi
      exact ⟨fun heq => by omega, fun hall => absurd (hall i List.mem_cons_self) hi⟩

/-- Two ascending lists with the same members are equal. -/
theorem eq_of_ascending {l m : List Nat} (hl : l.Pairwise (· < ·)) (hm : m.Pairwise (· < ·))
    (h : ∀ i, i ∈ l ↔ i ∈ m) : l = m := by
  induction l generalizing m with
  | nil =>
    cases m with
    | nil => rfl
    | cons b m => exact absurd ((h b).mpr List.mem_cons_self) (by simp)
  | cons a l ih =>
    cases m with
    | nil => exact absurd ((h a).mp List.mem_cons_self) (by simp)
    | cons b m =>
      have ha := List.pairwise_cons.mp hl
      have hb := List.pairwise_cons.mp hm
      have hab : a = b := by
        rcases List.mem_cons.mp ((h a).mp List.mem_cons_self) with hab | hab
        · exact hab
        · rcases List.mem_cons.mp ((h b).mpr List.mem_cons_self) with hba | hba
          · exact hba.symm
          · have h1 := hb.1 a hab
            have h2 := ha.1 b hba
            omega
      subst hab
      congr 1
      refine ih ha.2 hb.2 fun i => ⟨fun hi => ?_, fun hi => ?_⟩
      · rcases List.mem_cons.mp ((h i).mp (List.mem_cons_of_mem _ hi)) with rfl | him
        · exact absurd (ha.1 i hi) (Nat.lt_irrefl _)
        · exact him
      · rcases List.mem_cons.mp ((h i).mpr (List.mem_cons_of_mem _ hi)) with rfl | hil
        · exact absurd (hb.1 i hi) (Nat.lt_irrefl _)
        · exact hil

/-! ## The type -/

/-- A finite set of instruction indices, ascending and without repetition. -/
structure IndexSet where
  toList : List Nat
  ascending : toList.Pairwise (· < ·)
deriving DecidableEq

namespace IndexSet

instance : Membership Nat IndexSet := ⟨fun s i => i ∈ s.toList⟩

theorem mem_def {i : Nat} {s : IndexSet} : i ∈ s ↔ i ∈ s.toList := Iff.rfl

/-- The empty set, which parameters and uninitialised locals carry. -/
def empty : IndexSet := ⟨[], List.Pairwise.nil⟩

/-- The set of one producer. -/
def singleton (i : Nat) : IndexSet := ⟨[i], List.pairwise_singleton _ _⟩

/-- The set of the indices in a list, which may be in any order and repeat some. -/
def ofList (l : List Nat) : IndexSet :=
  ⟨insertAll [] l, pairwise_insertAll List.Pairwise.nil⟩

/-- The union of two sets. -/
def union (s t : IndexSet) : IndexSet :=
  ⟨insertAll s.toList t.toList, pairwise_insertAll s.ascending⟩

/-- Whether an index is a member. -/
def contains (s : IndexSet) (i : Nat) : Bool :=
  searchAscending i s.toList

/-- The number of members. -/
def size (s : IndexSet) : Nat := s.toList.length

/-- Whether the union with `t` is larger than `s`. -/
def grows (s t : IndexSet) : Bool :=
  (s.union t).size != s.size

/-- The only member, unless there are none or several. -/
def single? (s : IndexSet) : Option Nat :=
  match s.toList with
  | [i] => some i
  | _ => none

/-- Whether there is no member. -/
def isEmpty (s : IndexSet) : Bool := s.toList.isEmpty

/-- The members between braces. -/
def render (s : IndexSet) : String :=
  "\x7b" ++ ", ".intercalate (s.toList.map Nat.repr) ++ "\x7d"

/-! ## Members -/

@[simp]
theorem not_mem_empty {i : Nat} : i ∉ empty := by
  simp [mem_def, empty]

@[simp]
theorem mem_singleton {i j : Nat} : i ∈ singleton j ↔ i = j := by
  simp [mem_def, singleton]

@[simp]
theorem mem_ofList {l : List Nat} {i : Nat} : i ∈ ofList l ↔ i ∈ l := by
  simp [mem_def, ofList, mem_insertAll]

@[simp]
theorem mem_union {s t : IndexSet} {i : Nat} : i ∈ s.union t ↔ i ∈ s ∨ i ∈ t :=
  mem_insertAll

/-- The search finds exactly the members. -/
@[simp]
theorem contains_eq_true_iff {s : IndexSet} {i : Nat} : s.contains i = true ↔ i ∈ s :=
  searchAscending_eq_true_iff s.ascending

@[simp]
theorem contains_eq_false_iff {s : IndexSet} {i : Nat} : s.contains i = false ↔ i ∉ s := by
  rw [← contains_eq_true_iff, Bool.not_eq_true]

/-- Sets with the same members are equal. -/
theorem ext_mem {s t : IndexSet} (h : ∀ i, i ∈ s ↔ i ∈ t) : s = t := by
  cases s with
  | mk l hl =>
    cases t with
    | mk m hm =>
      have : l = m := eq_of_ascending hl hm h
      subst this
      rfl

theorem grows_eq_true_iff {s t : IndexSet} : s.grows t = true ↔ ∃ i, i ∈ t ∧ i ∉ s := by
  unfold grows union size
  rw [bne_iff_ne, ne_eq, length_insertAll_eq_iff s.ascending]
  simp [mem_def]

/-- A union grows exactly when it differs from what it started with. -/
theorem grows_eq_true_iff_union_ne {s t : IndexSet} : s.grows t = true ↔ s.union t ≠ s := by
  rw [grows_eq_true_iff]
  constructor
  · rintro ⟨i, hi, hn⟩ heq
    exact hn (heq ▸ mem_union.mpr (Or.inr hi))
  · intro hne
    refine Classical.byContradiction fun hall => hne (ext_mem fun i => ?_)
    rw [mem_union]
    refine ⟨fun hi => hi.elim id fun ht => ?_, Or.inl⟩
    exact Classical.byContradiction fun hs => hall ⟨i, ht, hs⟩

/-! ## What is still missing -/

/-- How many indices below `n` are not members. -/
def missing (n : Nat) (s : IndexSet) : Nat :=
  (List.range n).countP fun i => !s.contains i

theorem missing_union_le (n : Nat) (s t : IndexSet) : (s.union t).missing n ≤ s.missing n := by
  refine List.countP_mono_left fun i _ hi => ?_
  simp only [Bool.not_eq_true', contains_eq_false_iff, mem_union] at hi ⊢
  exact fun hs => hi (Or.inl hs)

/-- A union that grows by an index below `n` leaves fewer of them missing. -/
theorem missing_union_lt {n : Nat} {s t : IndexSet} (hg : s.grows t = true)
    (ht : ∀ i ∈ t, i < n) : (s.union t).missing n < s.missing n := by
  obtain ⟨i, hi, hn⟩ := grows_eq_true_iff.mp hg
  refine countP_lt_of_imp (List.mem_range.mpr (ht i hi)) ?_ ?_ fun j _ hj => ?_
  · simpa using Or.inr hi
  · simpa using hn
  · simp only [Bool.not_eq_true', contains_eq_false_iff, mem_union] at hj ⊢
    exact fun hs => hj (Or.inl hs)

end IndexSet

end CallFold
