/-!
# Counting

Inequalities between counts and between sums, for the measures by which searches end: fewer elements
satisfy the smaller predicate, and a sum goes down when one of its terms does.
-/

namespace CallFold

/-- A predicate that holds less often, and fails somewhere, is counted less often. -/
theorem countP_lt_of_imp {α : Type} {p q : α → Bool} {l : List α} {a : α} (ha : a ∈ l)
    (hp : p a = false) (hq : q a = true) (h : ∀ b ∈ l, p b = true → q b = true) :
    l.countP p < l.countP q := by
  induction l with
  | nil => simp at ha
  | cons b rest ih =>
    have hle := List.countP_mono_left fun c hc => h c (List.mem_cons_of_mem _ hc)
    have hb := h b List.mem_cons_self
    simp only [List.countP_cons]
    rcases List.mem_cons.mp ha with rfl | ha
    · simp [hp, hq]; omega
    · have hlt := ih ha fun c hc => h c (List.mem_cons_of_mem _ hc)
      by_cases hpb : p b = true
      · rw [if_pos hpb, if_pos (hb hpb)]
        omega
      · rw [if_neg hpb]
        omega

/-- The sum of the weights of some elements. -/
def totalWeight {α : Type} (weight : α → Nat) : List α → Nat
  | [] => 0
  | a :: rest => weight a + totalWeight weight rest

/-- Replacing an element by one of another weight changes the sum by the difference. -/
theorem totalWeight_set {α : Type} (weight : α → Nat) {l : List α} {i : Nat} {a : α}
    (h : l[i]? = some a) (b : α) :
    totalWeight weight (l.set i b) + weight a = totalWeight weight l + weight b := by
  induction l generalizing i with
  | nil => simp at h
  | cons c rest ih =>
    cases i with
    | zero =>
      simp only [List.getElem?_cons_zero, Option.some.injEq] at h
      subst h
      simp only [List.set_cons_zero, totalWeight]
      omega
    | succ i =>
      simp only [List.getElem?_cons_succ] at h
      have := ih h
      simp only [List.set_cons_succ, totalWeight]
      omega

theorem totalWeight_replicate {α : Type} (weight : α → Nat) (n : Nat) (a : α) :
    totalWeight weight (List.replicate n a) = n * weight a := by
  induction n with
  | zero => rw [List.replicate_zero, totalWeight, Nat.zero_mul]
  | succ n ih => rw [List.replicate_succ, totalWeight, ih, Nat.succ_mul, Nat.add_comm]

theorem totalWeight_le {α : Type} {weight : α → Nat} {bound : Nat} {l : List α}
    (h : ∀ a ∈ l, weight a ≤ bound) : totalWeight weight l ≤ bound * l.length := by
  induction l with
  | nil => exact Nat.zero_le _
  | cons a rest ih =>
    have ha := h a List.mem_cons_self
    have hrest := ih fun b hb => h b (List.mem_cons_of_mem _ hb)
    rw [totalWeight, List.length_cons, Nat.mul_succ]
    omega

theorem totalWeight_mono {α : Type} {weight weight' : α → Nat} {l : List α}
    (h : ∀ a ∈ l, weight' a ≤ weight a) : totalWeight weight' l ≤ totalWeight weight l := by
  induction l with
  | nil => exact Nat.le_refl _
  | cons a rest ih =>
    exact Nat.add_le_add (h a List.mem_cons_self) (ih fun b hb => h b (List.mem_cons_of_mem _ hb))

/-- If no term goes up and one goes down by some amount, the sum goes down by as much. -/
theorem totalWeight_add_le {α : Type} {weight weight' : α → Nat} {l : List α} {a : α}
    {amount : Nat} (ha : a ∈ l) (hdown : weight' a + amount ≤ weight a)
    (h : ∀ b ∈ l, weight' b ≤ weight b) :
    totalWeight weight' l + amount ≤ totalWeight weight l := by
  induction l with
  | nil => simp at ha
  | cons b rest ih =>
    have hrest : ∀ c ∈ rest, weight' c ≤ weight c := fun c hc => h c (List.mem_cons_of_mem _ hc)
    simp only [totalWeight]
    rcases List.mem_cons.mp ha with rfl | ha
    · have := totalWeight_mono hrest
      omega
    · have hb := h b List.mem_cons_self
      have := ih ha hrest
      omega

end CallFold
