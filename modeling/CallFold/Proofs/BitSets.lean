import CallFold.BitSet
import CallFold.IndexSet
import Mathlib

/-!
# Bit sets are finite sets

A bit set answers as a finite set would, whatever indices below its capacity were added and removed
before (`BitSet.edited_refines_finset`). Its words are read bit by bit: `holds` is a bit of a word
found by division, and a word is listed by clearing its lowest bit until nothing is left.

The relation between words and members is `Represents`. It holds at first, every call keeps it, and
it says what each query answers. It also says that no bit beyond the capacity is set, which the words
alone do not: the last word has room for more indices than there are.
-/

namespace CallFold.BitSet

/-! ## Single words -/

/-- Subtracting one does not change the bits above the lowest one that is set. -/
theorem testBit_pred {n low k : Nat} (hlow : n.testBit low = true) (hlt : low < k) :
    (n - 1).testBit k = n.testBit k := by
  have hrem : n % 2 ^ k ≠ 0 := by
    intro h0
    have hbit := Nat.testBit_mod_two_pow n k low
    rw [h0, hlow] at hbit
    simp [hlt] at hbit
  have hdiv : (n - 1) / 2 ^ k = n / 2 ^ k := by
    have hpos : 0 < 2 ^ k := Nat.two_pow_pos k
    have hsplit := Nat.div_add_mod n (2 ^ k)
    have hmod := Nat.mod_lt n hpos
    refine Nat.div_eq_of_lt_le ?_ ?_
    · rw [Nat.mul_comm]
      omega
    · rw [Nat.succ_mul, Nat.mul_comm]
      omega
  rw [Nat.testBit_eq_decide_div_mod_eq, Nat.testBit_eq_decide_div_mod_eq, hdiv]

/-- Subtracting one clears the lowest bit that is set. -/
theorem testBit_pred_lowest {n low : Nat} (hlow : n.testBit low = true)
    (hbelow : ∀ k, k < low → n.testBit k = false) : (n - 1).testBit low = false := by
  have hrem : n % 2 ^ low = 0 := by
    refine Nat.eq_of_testBit_eq fun k => ?_
    rw [Nat.testBit_mod_two_pow, Nat.zero_testBit]
    by_cases hk : k < low
    · simp [hbelow k hk]
    · simp [hk]
  rw [Nat.testBit_eq_decide_div_mod_eq, decide_eq_true_iff] at hlow
  obtain ⟨q, hq⟩ := Nat.dvd_of_mod_eq_zero hrem
  have hpos : 0 < 2 ^ low := Nat.two_pow_pos low
  rw [hq, Nat.mul_div_cancel_left q hpos] at hlow
  -- the quotient is odd, and the borrow goes no further than to its last bit
  have hdiv : (n - 1) / 2 ^ low = q - 1 := by
    obtain ⟨r, rfl⟩ : ∃ r, q = r + 1 := ⟨q - 1, by omega⟩
    rw [hq, Nat.mul_succ]
    refine Nat.div_eq_of_lt_le ?_ ?_
    · rw [Nat.add_sub_cancel, Nat.mul_comm]
      omega
    · rw [Nat.succ_mul, Nat.add_sub_cancel, Nat.mul_comm]
      omega
  rw [Nat.testBit_eq_decide_div_mod_eq, hdiv, decide_eq_false_iff_not]
  omega

/-- A word that is not zero has a lowest bit. -/
theorem trailingZeros_spec {w : UInt64} (h : w ≠ 0) :
    trailingZeros w < 64 ∧ testBit w (trailingZeros w) = true ∧
      ∀ k, k < trailingZeros w → testBit w k = false := by
  have hne : w.toNat ≠ 0 := fun h0 => h (UInt64.toNat_inj.mp (by simpa using h0))
  obtain ⟨k, hk⟩ := Nat.exists_testBit_of_ne_zero hne
  have hlt : k < 64 := by
    refine Nat.lt_of_not_le fun hle => ?_
    have hsmall : w.toNat < 2 ^ k :=
      Nat.lt_of_lt_of_le w.toNat_lt (Nat.pow_le_pow_right (by decide) hle)
    rw [Nat.testBit_lt_two_pow hsmall] at hk
    simp at hk
  unfold trailingZeros
  cases hfind : (List.range 64).find? (testBit w) with
  | none =>
    rw [List.find?_eq_none] at hfind
    exact absurd ((testBit_eq hlt w).trans hk) (hfind k (List.mem_range.mpr hlt))
  | some low =>
    obtain ⟨hlow, hmem, hleast⟩ := List.find?_range_eq_some.mp hfind
    refine ⟨List.mem_range.mp hmem, hlow, fun k hk => ?_⟩
    simpa using hleast k hk

/-- Clearing the lowest bit leaves the others as they are. -/
theorem testBit_and_pred {w : UInt64} (h : w ≠ 0) {k : Nat} (hk : k < 64) :
    testBit (w &&& (w - 1)) k = (testBit w k && decide (k ≠ trailingZeros w)) := by
  obtain ⟨hlow, hset, hbelow⟩ := trailingZeros_spec h
  rw [testBit_eq hlow] at hset
  have hand : testBit (w &&& (w - 1)) k = (testBit w k && (w.toNat - 1).testBit k) := by
    rw [testBit_eq hk, testBit_eq hk, UInt64.toNat_and, Nat.testBit_and, toNat_sub_one h]
  rw [hand]
  rcases Nat.lt_trichotomy k (trailingZeros w) with hlt | rfl | hlt
  · rw [hbelow k hlt, Bool.false_and, Bool.false_and]
  · have hbelow' : ∀ j, j < trailingZeros w → w.toNat.testBit j = false := by
      intro j hj
      rw [← testBit_eq (Nat.lt_trans hj hlow)]
      exact hbelow j hj
    rw [testBit_pred_lowest hset hbelow']
    simp
  · rw [testBit_pred hset hlt, ← testBit_eq hk, Bool.and_self]
    simp [Nat.ne_of_gt hlt]

/-- The bits that are listed are those that are set. -/
theorem mem_setBits_iff {w : UInt64} {k : Nat} :
    k ∈ setBits w ↔ k < 64 ∧ testBit w k = true := by
  fun_induction setBits w with
  | case1 => simp [testBit_zero]
  | case2 w hne ih =>
    obtain ⟨hlow, hset, -⟩ := trailingZeros_spec hne
    rw [List.mem_cons, ih]
    by_cases hk : k < 64
    · rw [testBit_and_pred hne hk]
      by_cases heq : k = trailingZeros w
      · simp [heq, hlow, hset]
      · simp [heq, hk]
    · have hne' : k ≠ trailingZeros w := by omega
      simp [hk, hne']

theorem ascending_setBits (w : UInt64) : (setBits w).Pairwise (· < ·) := by
  fun_induction setBits w with
  | case1 => exact List.Pairwise.nil
  | case2 w hne ih =>
    refine List.pairwise_cons.mpr ⟨fun k hk => ?_, ih⟩
    obtain ⟨hlt, hbit⟩ := mem_setBits_iff.mp hk
    rw [testBit_and_pred hne hlt, Bool.and_eq_true, decide_eq_true_iff] at hbit
    -- what is listed after the lowest bit is set and is another one
    refine Nat.lt_of_le_of_ne (Nat.le_of_not_lt fun hbelow => ?_) (Ne.symm hbit.2)
    rw [(trailingZeros_spec hne).2.2 k hbelow] at hbit
    simp at hbit

/-- To clear bits until none is left counts them. -/
theorem length_setBits (w : UInt64) : (setBits w).length = countOnes w := by
  have hfilter : setBits w = (List.range 64).filter (testBit w) := by
    refine eq_of_ascending (ascending_setBits w) (List.pairwise_lt_range.filter _) fun k => ?_
    rw [mem_setBits_iff, List.mem_filter, List.mem_range]
  rw [hfilter, countOnes, List.countP_eq_length_filter]

/-! ## Words of a set -/

theorem word_of_getElem? {s : BitSet} {k : Nat} {w : UInt64} (h : s.words[k]? = some w) {j : Nat}
    (hj : j < 64) : s.word (64 * k + j) = w ∧ (64 * k + j) % 64 = j := by
  have hdiv : (64 * k + j) / 64 = k := by omega
  refine ⟨?_, by omega⟩
  rw [word, hdiv, Array.getD_eq_getD_getElem?, h]
  rfl

theorem getElem?_of_holds {s : BitSet} {i : Nat} (h : s.holds i = true) :
    s.words[i / 64]? = some (s.word i) := by
  unfold holds at h
  by_cases hindex : i / 64 < s.words.size
  · simp [word, hindex]
  · have hzero : s.word i = 0 := by
      simp [word, hindex]
    rw [hzero, testBit_zero] at h
    simp at h

/-- The indices that are listed are those whose bits are set. -/
theorem mem_toList_iff {s : BitSet} {i : Nat} : i ∈ s.toList ↔ s.holds i = true := by
  unfold toList
  rw [List.mem_flatMap]
  constructor
  · rintro ⟨⟨w, k⟩, hmem, hi⟩
    obtain ⟨j, hj, rfl⟩ := List.mem_map.mp hi
    obtain ⟨hlt, hbit⟩ := mem_setBits_iff.mp hj
    rw [List.mk_mem_zipIdx_iff_getElem?, Array.getElem?_toList] at hmem
    obtain ⟨hword, hmod⟩ := word_of_getElem? hmem hlt
    rw [holds, hword, hmod]
    exact hbit
  · intro h
    refine ⟨(s.word i, i / 64), ?_, List.mem_map.mpr ⟨i % 64, ?_, Nat.div_add_mod i 64⟩⟩
    · rw [List.mk_mem_zipIdx_iff_getElem?, Array.getElem?_toList]
      exact getElem?_of_holds h
    · exact mem_setBits_iff.mpr ⟨Nat.mod_lt _ (by decide), h⟩

/-- Within a word the bits ascend, and every index of a word is below those of the next. -/
theorem ascending_toList (s : BitSet) : s.toList.Pairwise (· < ·) := by
  unfold toList
  refine List.pairwise_flatMap.mpr ⟨?_, ?_⟩
  · rintro ⟨w, k⟩ -
    refine List.pairwise_map.mpr ((ascending_setBits w).imp fun hlt => ?_)
    omega
  · have hindices : (s.words.toList.zipIdx.map Prod.snd).Pairwise (· < ·) := by
      rw [List.zipIdx_map_snd]
      exact List.pairwise_lt_range'
    refine (List.pairwise_map.mp hindices).imp ?_
    rintro ⟨v, k⟩ ⟨w, l⟩ hlt i hi j hj
    obtain ⟨a, ha, rfl⟩ := List.mem_map.mp hi
    obtain ⟨b, -, rfl⟩ := List.mem_map.mp hj
    have := (mem_setBits_iff.mp ha).1
    dsimp only at hlt ⊢
    omega

theorem length_toList (s : BitSet) : s.toList.length = s.count := by
  unfold toList count
  generalize s.words.toList = words
  generalize 0 = first
  induction words generalizing first with
  | nil => rfl
  | cons w rest ih =>
    rw [List.zipIdx_cons, List.flatMap_cons, List.length_append, List.length_map, length_setBits,
      totalWeight, ih]

theorem isEmpty_iff {s : BitSet} : s.isEmpty = true ↔ ∀ i, s.holds i = false := by
  unfold isEmpty
  rw [Array.all_eq_true]
  constructor
  · intro h i
    by_contra hbit
    rw [Bool.not_eq_false] at hbit
    obtain ⟨hlt, hword⟩ := Array.getElem?_eq_some_iff.mp (getElem?_of_holds hbit)
    have hzero : s.word i = 0 := by
      rw [← hword]
      exact beq_iff_eq.mp (h (i / 64) hlt)
    rw [holds, hzero, testBit_zero] at hbit
    simp at hbit
  · intro h k hk
    by_contra hne
    rw [beq_iff_eq] at hne
    obtain ⟨hlow, hset, -⟩ := trailingZeros_spec hne
    obtain ⟨hword, hmod⟩ := word_of_getElem? (Array.getElem?_eq_getElem hk) hlow
    have hbit := h (64 * k + trailingZeros s.words[k])
    rw [holds, hword, hmod, hset] at hbit
    simp at hbit

/-- An index that is in the set is on its list. -/
theorem mem_toList_of_contains {s : BitSet} {i : Nat} (h : s.contains i = true) :
    i ∈ s.toList := by
  rw [contains, Bool.and_eq_true] at h
  exact mem_toList_iff.mpr h.2

/-- An index below the capacity that is on the list of a set is in the set. -/
theorem contains_of_mem_toList {s : BitSet} {i : Nat} (h : i ∈ s.toList) (hlt : i < s.capacity) :
    s.contains i = true := by
  rw [contains, mem_toList_iff.mp h, decide_eq_true hlt, Bool.and_true]

/-! ## Adding and removing -/

/-- The bits that are set are those of the members, all of which are below the capacity. -/
structure Represents (s : BitSet) (capacity : Nat) (members : Finset Nat) : Prop where
  capacity_eq : s.capacity = capacity
  holds_iff : ∀ i, s.holds i = true ↔ i ∈ members
  below : ∀ i ∈ members, i < capacity

theorem represents_empty (capacity : Nat) : Represents (empty capacity) capacity ∅ where
  capacity_eq := rfl
  holds_iff := fun i => by simp [holds_empty]
  below := by simp

variable {s : BitSet} {capacity i : Nat} {members : Finset Nat}

theorem Represents.insert (h : Represents s capacity members) (hi : i < capacity) :
    Represents (s.insert i).2 capacity (Insert.insert i members) where
  capacity_eq := by rw [capacity_insert, h.capacity_eq]
  holds_iff := by
    intro j
    rw [holds_insert s (h.capacity_eq ▸ hi), Finset.mem_insert, ← h.holds_iff]
    by_cases hj : j = i <;> simp [hj]
  below := by
    intro j hj
    rcases Finset.mem_insert.mp hj with rfl | hj
    · exact hi
    · exact h.below j hj

theorem Represents.erase (h : Represents s capacity members) (hi : i < capacity) :
    Represents (s.erase i).2 capacity (members.erase i) where
  capacity_eq := by rw [capacity_erase, h.capacity_eq]
  holds_iff := by
    intro j
    rw [holds_erase s (h.capacity_eq ▸ hi), Finset.mem_erase, ← h.holds_iff]
    by_cases hj : j = i <;> simp [hj]
  below := fun j hj => h.below j (Finset.mem_of_mem_erase hj)

/-! ## Answers -/

/-- A bit set gives the answers of a finite set. -/
structure AnswersAs (s : BitSet) (capacity : Nat) (members : Finset Nat) : Prop where
  capacity_eq : s.capacity = capacity
  insert_iff : ∀ i, i < capacity → ((s.insert i).1 = true ↔ i ∉ members)
  erase_iff : ∀ i, i < capacity → ((s.erase i).1 = true ↔ i ∈ members)
  contains_iff : ∀ i, s.contains i = true ↔ i ∈ members
  isEmpty_iff : s.isEmpty = true ↔ members = ∅
  count_eq : s.count = members.card
  ascending : s.toList.Pairwise (· < ·)
  mem_toList_iff : ∀ i, i ∈ s.toList ↔ i ∈ members

theorem Represents.contains_iff (h : Represents s capacity members) :
    s.contains i = true ↔ i ∈ members := by
  rw [contains, Bool.and_eq_true, decide_eq_true_iff, h.holds_iff, h.capacity_eq]
  exact ⟨And.right, fun hi => ⟨h.below i hi, hi⟩⟩

theorem Represents.erase_fst (h : Represents s capacity members) (hi : i < capacity) :
    (s.erase i).1 = true ↔ i ∈ members := by
  rw [← h.capacity_eq] at hi
  rw [BitSet.erase, if_pos hi, h.holds_iff]

/-- The list of a set without repetition is as long as the set is large. -/
theorem Represents.count_eq (h : Represents s capacity members) : s.count = members.card := by
  have hnodup : s.toList.Nodup := (ascending_toList s).imp Nat.ne_of_lt
  have hmembers : s.toList.toFinset = members := by
    ext i
    rw [List.mem_toFinset, mem_toList_iff, h.holds_iff]
  rw [← length_toList, ← hmembers, List.toFinset_card_of_nodup hnodup]

theorem Represents.answersAs (h : Represents s capacity members) :
    AnswersAs s capacity members where
  capacity_eq := h.capacity_eq
  insert_iff := by
    intro i hi
    rw [insert_fst, h.capacity_eq, decide_eq_true hi, Bool.true_and, Bool.not_eq_true',
      ← Bool.not_eq_true, h.contains_iff]
  erase_iff := fun i hi => h.erase_fst hi
  contains_iff := fun i => h.contains_iff
  isEmpty_iff := by
    rw [BitSet.isEmpty_iff, Finset.eq_empty_iff_forall_notMem]
    exact forall_congr' fun i => by rw [← h.holds_iff, Bool.not_eq_true]
  count_eq := h.count_eq
  ascending := ascending_toList s
  mem_toList_iff := fun i => by rw [BitSet.mem_toList_iff, h.holds_iff]

/-! ## Sequences of calls -/

/-- A call that adds or removes an index. -/
inductive Edit where
  | insert (index : Nat)
  | erase (index : Nat)
deriving DecidableEq

namespace Edit

/-- The index that is added or removed. -/
def index : Edit → Nat
  | insert index | erase index => index

/-- The answer of a call, and the set after it. -/
def apply (s : BitSet) : Edit → Bool × BitSet
  | insert index => s.insert index
  | erase index => s.erase index

end Edit

/-- The set after some calls, the first of them on an empty set. -/
def edited (capacity : Nat) (edits : List Edit) : BitSet :=
  edits.foldl (fun s e => (e.apply s).2) (empty capacity)

/-- An index was added by a call and not removed by a later one. -/
def Stays (edits : List Edit) (i : Nat) : Prop :=
  ∃ earlier later, edits = earlier ++ .insert i :: later ∧ .erase i ∉ later

/-- The last call added the index, or it did not remove it and the index stayed before. -/
theorem stays_concat {edits : List Edit} {e : Edit} :
    Stays (edits ++ [e]) i ↔ e = .insert i ∨ e ≠ .erase i ∧ Stays edits i := by
  constructor
  · rintro ⟨earlier, later, hedits, hkept⟩
    rcases List.eq_nil_or_concat later with rfl | ⟨rest, last, rfl⟩
    · exact Or.inl (List.singleton_inj.mp (List.append_inj' hedits rfl).2)
    · rw [List.concat_eq_append, ← List.cons_append, ← List.append_assoc] at hedits
      obtain ⟨rfl, hlast⟩ := List.append_inj' hedits rfl
      obtain rfl := List.singleton_inj.mp hlast
      rw [List.concat_eq_append, List.mem_append, List.mem_singleton, not_or] at hkept
      exact Or.inr ⟨Ne.symm hkept.2, earlier, rest, rfl, hkept.1⟩
  · rintro (rfl | ⟨hne, earlier, later, rfl, hkept⟩)
    · exact ⟨edits, [], rfl, List.not_mem_nil⟩
    · refine ⟨earlier, later ++ [e], by simp, ?_⟩
      rw [List.mem_append, List.mem_singleton, not_or]
      exact ⟨hkept, Ne.symm hne⟩

/-- What one call keeps, a sequence of calls keeps. -/
theorem represents_edited {edits : List Edit} (h : ∀ e ∈ edits, e.index < capacity) :
    ∃ members, (∀ i, i ∈ members ↔ Stays edits i) ∧
      Represents (edited capacity edits) capacity members := by
  induction edits using List.reverseRecOn with
  | nil => exact ⟨∅, by simp [Stays], represents_empty capacity⟩
  | append_singleton edits e ih =>
    obtain ⟨members, hstays, hrep⟩ := ih fun e he => h e (List.mem_append_left _ he)
    have hindex := h e (by simp)
    have hedited : edited capacity (edits ++ [e]) = (e.apply (edited capacity edits)).2 := by
      rw [edited, List.foldl_append]
      rfl
    rw [hedited]
    cases e with
    | insert j =>
      refine ⟨Insert.insert j members, fun i => ?_, hrep.insert hindex⟩
      simp [stays_concat, hstays, eq_comm]
    | erase j =>
      refine ⟨members.erase j, fun i => ?_, hrep.erase hindex⟩
      simp [stays_concat, hstays, eq_comm]

/--
After any sequence of calls with indices below the capacity, a bit set answers the next call and
every query as the finite set of what was added and not removed since.
-/
theorem edited_refines_finset {edits : List Edit} (h : ∀ e ∈ edits, e.index < capacity) :
    ∃ members : Finset Nat, (∀ i, i ∈ members ↔ Stays edits i) ∧
      AnswersAs (edited capacity edits) capacity members := by
  obtain ⟨members, hstays, hrep⟩ := represents_edited h
  exact ⟨members, hstays, hrep.answersAs⟩

/-- Calls on both sides of two word boundaries, for a capacity that is no multiple of 64. -/
def acrossWords : List Edit :=
  [.insert 64, .insert 129, .insert 3, .insert 64, .erase 64, .insert 63, .erase 5]

theorem edited_refines_finset_acrossWords :
    (∀ e ∈ acrossWords, e.index < 130) ∧ (edited 130 acrossWords).toList = [3, 63, 129] ∧
      ∃ members : Finset Nat, (∀ i, i ∈ members ↔ Stays acrossWords i) ∧
        AnswersAs (edited 130 acrossWords) 130 members :=
  ⟨by decide, by cbv, edited_refines_finset (by decide)⟩

end CallFold.BitSet
