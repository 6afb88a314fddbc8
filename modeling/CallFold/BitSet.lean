import CallFold.Counting

/-!
# Bit sets

A set of indices below a fixed capacity, held in 64-bit words: index `i` is bit `i % 64` of word
`i / 64`. It marks the instructions that a search has visited, or that are to be visited.

`BitSet.contains_insert` says which indices a set holds after one was added. Adding an index that
was absent leaves fewer absent ones (`BitSet.absent_insert_lt`), which ends every search.
-/

namespace CallFold

/-- A set of indices below `capacity`, in 64-bit words. -/
structure BitSet where
  capacity : Nat
  words : Array UInt64
  size_words : words.size = (capacity + 63) / 64

namespace BitSet

/-! ## Single words -/

/-- The word with only bit `k` set. -/
def bit (k : Nat) : UInt64 := 1 <<< UInt64.ofNat k

/-- Whether bit `k` of a word is set. -/
def testBit (w : UInt64) (k : Nat) : Bool := w &&& bit k != 0

/-- The lowest bit that is set, or 64. -/
def trailingZeros (w : UInt64) : Nat :=
  ((List.range 64).find? (testBit w)).getD 64

/-- The number of bits that are set. -/
def countOnes (w : UInt64) : Nat :=
  (List.range 64).countP (testBit w)

theorem toNat_sub_one {w : UInt64} (h : w ≠ 0) : (w - 1).toNat = w.toNat - 1 := by
  have hpos : 0 < w.toNat := by
    refine Nat.pos_of_ne_zero fun h0 => h (UInt64.toNat_inj.mp ?_)
    simpa using h0
  rw [UInt64.toNat_sub_of_le]
  · rfl
  · rw [UInt64.le_iff_toNat_le, UInt64.toNat_one]
    exact hpos

/-- Clearing the lowest bit of a word makes it smaller. -/
theorem toNat_and_pred_lt {w : UInt64} (h : w ≠ 0) : (w &&& (w - 1)).toNat < w.toNat := by
  have hne : w.toNat ≠ 0 := fun h0 => h (UInt64.toNat_inj.mp (by simpa using h0))
  have hle := Nat.and_le_right (n := w.toNat) (m := w.toNat - 1)
  rw [UInt64.toNat_and, toNat_sub_one h]
  omega

/-- The bits of a word that are set, ascending: the lowest one, then those that are left. -/
def setBits (w : UInt64) : List Nat :=
  if w = 0 then [] else trailingZeros w :: setBits (w &&& (w - 1))
termination_by w.toNat
decreasing_by exact toNat_and_pred_lt (by assumption)

/-! ## Sets -/

/-- The empty set of a capacity. -/
def empty (capacity : Nat) : BitSet where
  capacity := capacity
  words := Array.replicate ((capacity + 63) / 64) 0
  size_words := Array.size_replicate

/-- The word that holds an index. -/
def word (s : BitSet) (i : Nat) : UInt64 := s.words.getD (i / 64) 0

/-- Whether the bit of an index is set. -/
def holds (s : BitSet) (i : Nat) : Bool := testBit (s.word i) (i % 64)

/-- Whether an index is in the set. No index beyond the capacity is. -/
def contains (s : BitSet) (i : Nat) : Bool :=
  i < s.capacity && s.holds i

/-- Replaces the word that holds an index. -/
def setWord (s : BitSet) (i : Nat) (w : UInt64) : BitSet where
  capacity := s.capacity
  words := s.words.setIfInBounds (i / 64) w
  size_words := by rw [Array.size_setIfInBounds]; exact s.size_words

/-- Adds an index and says whether it was absent. An index beyond the capacity is not added. -/
def insert (s : BitSet) (i : Nat) : Bool × BitSet :=
  if i < s.capacity then
    (!s.holds i, s.setWord i (s.word i ||| bit (i % 64)))
  else (false, s)

/-- Removes an index and says whether it was present. -/
def erase (s : BitSet) (i : Nat) : Bool × BitSet :=
  if i < s.capacity then
    (s.holds i, s.setWord i (s.word i &&& ~~~bit (i % 64)))
  else (false, s)

/-- Whether no index is in the set. -/
def isEmpty (s : BitSet) : Bool :=
  s.words.all (· == 0)

/-- The number of indices in the set. -/
def count (s : BitSet) : Nat :=
  totalWeight countOnes s.words.toList

/-- The indices in the set, ascending. -/
def toList (s : BitSet) : List Nat :=
  s.words.toList.zipIdx.flatMap fun (w, k) => (setBits w).map (64 * k + ·)

/-! ## Bits and masks -/

theorem testBit_toNat_bit {k : Nat} (hk : k < 64) (j : Nat) :
    (bit k).toNat.testBit j = decide (k = j) := by
  have hlt : 2 ^ k < 2 ^ 64 := Nat.pow_lt_pow_right (by decide) hk
  have hword : k < 2 ^ 64 := Nat.lt_of_lt_of_le hk (by decide)
  have htoNat : (bit k).toNat = 2 ^ k := by
    unfold bit
    rw [UInt64.toNat_shiftLeft, UInt64.toNat_ofNat', Nat.mod_eq_of_lt hword, Nat.mod_eq_of_lt hk,
      UInt64.toNat_one, Nat.one_shiftLeft, Nat.mod_eq_of_lt hlt]
  rw [htoNat, Nat.testBit_two_pow]

/-- A word and a mask have a bit in common exactly if the bit of the mask is set in the word. -/
theorem testBit_eq {k : Nat} (hk : k < 64) (w : UInt64) : testBit w k = w.toNat.testBit k := by
  have hand : ∀ j, (w &&& bit k).toNat.testBit j = (w.toNat.testBit j && decide (k = j)) := by
    intro j
    rw [UInt64.toNat_and, Nat.testBit_and, testBit_toNat_bit hk]
  unfold testBit
  cases hset : w.toNat.testBit k with
  | true =>
    refine bne_iff_ne.mpr fun hzero => ?_
    have hk' := hand k
    simp [hzero, hset] at hk'
  | false =>
    have hzero : w &&& bit k = 0 := by
      refine UInt64.toNat_inj.mp (Nat.eq_of_testBit_eq fun j => ?_)
      rw [hand j, UInt64.toNat_zero, Nat.zero_testBit]
      by_cases hkj : k = j
      · rw [← hkj, hset, Bool.false_and]
      · rw [decide_eq_false hkj, Bool.and_false]
    rw [hzero]
    rfl

theorem testBit_or {k : Nat} (hk : k < 64) (v w : UInt64) :
    testBit (v ||| w) k = (testBit v k || testBit w k) := by
  simp [testBit_eq hk]

theorem testBit_bit {k j : Nat} (hk : k < 64) (hj : j < 64) :
    testBit (bit k) j = decide (k = j) := by
  rw [testBit_eq hj, testBit_toNat_bit hk]

/-! ## The empty set -/

theorem testBit_zero (k : Nat) : testBit 0 k = false := by
  simp [testBit]

theorem holds_empty (capacity i : Nat) : (empty capacity).holds i = false := by
  have hword : (empty capacity).word i = 0 := by
    simp only [word, empty, Array.getD_eq_getD_getElem?, Array.getElem?_replicate]
    split <;> rfl
  rw [holds, hword, testBit_zero]

theorem contains_empty (capacity i : Nat) : (empty capacity).contains i = false := by
  rw [contains, holds_empty, Bool.and_false]

/-! ## Adding an index -/

theorem word_setWord (s : BitSet) {i : Nat} (hi : i < s.capacity) (w : UInt64) (j : Nat) :
    (s.setWord i w).word j = if j / 64 = i / 64 then w else s.word j := by
  have hsize := s.size_words
  have hlt : i / 64 < s.words.size := by omega
  unfold word setWord
  simp only [Array.getD_eq_getD_getElem?, Array.getElem?_setIfInBounds]
  by_cases h : j / 64 = i / 64
  · rw [if_pos h.symm, if_pos h, if_pos hlt]
    rfl
  · rw [if_neg fun h' => h h'.symm, if_neg h]

/-- A word that differs only in the bit of an index changes only what is held of that index. -/
theorem holds_setWord (s : BitSet) {i : Nat} {w : UInt64} {b : Bool} (hi : i < s.capacity)
    (hw : ∀ k, k < 64 → testBit w k = if k = i % 64 then b else testBit (s.word i) k) (j : Nat) :
    (s.setWord i w).holds j = if j = i then b else s.holds j := by
  unfold holds
  rw [word_setWord s hi]
  by_cases hword : j / 64 = i / 64
  · have hsame : s.word j = s.word i := by unfold word; rw [hword]
    have hindex : j % 64 = i % 64 ↔ j = i := by omega
    rw [if_pos hword, hw (j % 64) (Nat.mod_lt _ (by decide)), hsame]
    simp only [hindex]
  · have hne : j ≠ i := fun h => hword (by rw [h])
    rw [if_neg hword, if_neg hne]

@[simp]
theorem capacity_insert (s : BitSet) (i : Nat) : (s.insert i).2.capacity = s.capacity := by
  unfold insert
  split <;> rfl

theorem holds_insert (s : BitSet) {i : Nat} (hi : i < s.capacity) (j : Nat) :
    (s.insert i).2.holds j = if j = i then true else s.holds j := by
  have hbit : i % 64 < 64 := Nat.mod_lt _ (by decide)
  unfold insert
  rw [if_pos hi]
  refine holds_setWord s hi (fun k hk => ?_) j
  rw [testBit_or hk, testBit_bit hbit hk]
  by_cases h : k = i % 64
  · simp [h]
  · simp [h, Ne.symm h]

/-- After adding an index below the capacity, the set holds that index and what it held. -/
theorem contains_insert (s : BitSet) {i : Nat} (hi : i < s.capacity) (j : Nat) :
    (s.insert i).2.contains j = (decide (j = i) || s.contains j) := by
  unfold contains
  rw [capacity_insert, holds_insert s hi]
  by_cases h : j = i
  · simp [h, hi]
  · simp [h]

/-- Adding reports whether the index was absent, below the capacity. -/
theorem insert_fst (s : BitSet) (i : Nat) :
    (s.insert i).1 = (decide (i < s.capacity) && !s.contains i) := by
  unfold insert contains
  by_cases hi : i < s.capacity <;> simp [hi]

/-! ## Removing an index -/

theorem capacity_erase (s : BitSet) (i : Nat) : (s.erase i).2.capacity = s.capacity := by
  unfold erase
  split <;> rfl

theorem testBit_and_not {k : Nat} (hk : k < 64) (v w : UInt64) :
    testBit (v &&& ~~~w) k = (testBit v k && !testBit w k) := by
  have hbits : ∀ u : UInt64, u.toNat.testBit k = u.toBitVec.getLsbD k := fun u =>
    BitVec.testBit_toNat u.toBitVec
  simp only [testBit_eq hk, hbits, UInt64.toBitVec_and, UInt64.toBitVec_not, BitVec.getLsbD_and,
    BitVec.getLsbD_not, hk, decide_true, Bool.true_and]

theorem holds_erase (s : BitSet) {i : Nat} (hi : i < s.capacity) (j : Nat) :
    (s.erase i).2.holds j = if j = i then false else s.holds j := by
  have hbit : i % 64 < 64 := Nat.mod_lt _ (by decide)
  unfold erase
  rw [if_pos hi]
  refine holds_setWord s hi (fun k hk => ?_) j
  rw [testBit_and_not hk, testBit_bit hbit hk]
  by_cases h : k = i % 64
  · simp [h]
  · simp [h, Ne.symm h]

/-- After an index was removed, the set holds what it held but for that index. -/
theorem contains_erase (s : BitSet) (i j : Nat) :
    (s.erase i).2.contains j = (decide (j ≠ i) && s.contains j) := by
  by_cases hi : i < s.capacity
  · unfold contains
    rw [capacity_erase, holds_erase s hi]
    by_cases h : j = i
    · simp [h]
    · simp [h]
  · have hsame : (s.erase i).2 = s := by rw [erase, if_neg hi]
    rw [hsame]
    by_cases h : j = i
    · simp [contains, h, hi]
    · simp [h]

/-! ## What is still absent -/

/-- How many indices below the capacity are not in the set. -/
def absent (s : BitSet) : Nat :=
  (List.range s.capacity).countP fun i => !s.contains i

/-- Adding an index that was absent leaves fewer absent. -/
theorem absent_insert_lt {s t : BitSet} {i : Nat} (h : s.insert i = (true, t)) :
    t.absent < s.absent := by
  have hfresh : (decide (i < s.capacity) && !s.contains i) = true := by
    rw [← insert_fst, h]
  have ht : t = (s.insert i).2 := by rw [h]
  simp only [Bool.and_eq_true, decide_eq_true_eq, Bool.not_eq_true'] at hfresh
  subst ht
  unfold absent
  rw [capacity_insert]
  refine countP_lt_of_imp (List.mem_range.mpr hfresh.1) ?_ ?_ fun j _ hj => ?_
  · rw [contains_insert s hfresh.1]; simp
  · simp [hfresh.2]
  · rw [contains_insert s hfresh.1] at hj
    simp only [Bool.not_or, Bool.and_eq_true] at hj
    exact hj.2

end BitSet

end CallFold
