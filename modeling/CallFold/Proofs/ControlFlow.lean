import CallFold.Method
import CallFold.Proofs.Transfer

/-!
# Paths through a method

A path leads from the entry to an instruction along the edges of the control flow. It is known by
its trail, the instructions that were executed on the way, the latest first. Along a trail one can
say how deep the stack is, which instruction wrote a local slot last, and which instruction last
produced each slot. None of this looks at frames.

A path is clean if no instruction on its trail has a fault. A method is ill formed if a clean path
arrives at a fault, or if two clean paths arrive at one instruction with different depths.
-/

namespace CallFold.MethodBody

/-! ## Paths -/

/-- Control can go from `i` to `j`: on to the next instruction, or to a target that `i` names. -/
def Edge (m : MethodBody) (i j : Nat) : Prop :=
  ∃ instruction, m.code[i]? = some instruction ∧
    (instruction.fallsThrough = true ∧ j = i + 1 ∨ j ∈ instruction.branchTargets)

/-- Control can come from the entry to an instruction and execute a trail, the latest first. -/
inductive Path (m : MethodBody) : List Nat → Nat → Prop where
  | entry (h : 0 < m.length) : Path m [] 0
  | step {trail : List Nat} {i j : Nat} (hpath : Path m trail i) (hedge : m.Edge i j)
      (hj : j < m.length) : Path m (i :: trail) j

theorem mem_successors {i : Instruction} {index j : Nat} :
    j ∈ i.successors index ↔ i.fallsThrough = true ∧ j = index + 1 ∨ j ∈ i.branchTargets := by
  unfold Instruction.successors
  rw [IndexSet.mem_ofList]
  split
  · next h => simp [h]
  · next h => simp [h]

theorem edge_iff {m : MethodBody} {i j : Nat} {instruction : Instruction}
    (h : m.code[i]? = some instruction) : m.Edge i j ↔ j ∈ instruction.successors i := by
  rw [mem_successors]
  constructor
  · rintro ⟨instruction', h', hj⟩
    rw [h] at h'
    rw [Option.some.inj h']
    exact hj
  · exact fun hj => ⟨instruction, h, hj⟩

theorem Path.lt_length {m : MethodBody} {trail : List Nat} {i : Nat} (h : m.Path trail i) :
    i < m.length := by
  cases h with
  | entry h => exact h
  | step _ _ hj => exact hj

theorem exists_code {m : MethodBody} {i : Nat} (h : i < m.length) :
    ∃ instruction, m.code[i]? = some instruction :=
  ⟨_, Array.getElem?_eq_getElem h⟩

theorem length_pos_of_code {m : MethodBody} {i : Nat} {instruction : Instruction}
    (h : m.code[i]? = some instruction) : 0 < m.length :=
  Nat.zero_lt_of_lt (Array.getElem?_eq_some_iff.mp h).1

/-! ## What a trail does -/

/-- The number of values on the stack after a trail. -/
def depthAfter (m : MethodBody) : List Nat → Nat
  | [] => 0
  | i :: trail =>
    match m.code[i]? with
    | some instruction => depthAfter m trail - instruction.pops + instruction.pushes
    | none => depthAfter m trail

/-- The instruction of a trail that was the last to write a local slot. -/
def lastWriter? (m : MethodBody) (slot : Nat) (trail : List Nat) : Option Nat :=
  trail.find? fun i => (m.code[i]?).bind Instruction.writtenSlot? = some slot

/-- The instruction of a trail that last produced each slot, if one did. -/
def lastProducers (m : MethodBody) : List Nat → Slots (Option Nat)
  | [] => ⟨List.replicate m.maxLocals none, []⟩
  | i :: trail =>
    match m.code[i]? with
    | some instruction =>
      (lastProducers m trail).change instruction (some i)
        (List.replicate instruction.filled (some i))
    | none => lastProducers m trail

variable {m : MethodBody} {i : Nat} {instruction : Instruction}

theorem depthAfter_cons (h : m.code[i]? = some instruction) (trail : List Nat) :
    m.depthAfter (i :: trail) = m.depthAfter trail - instruction.pops + instruction.pushes := by
  rw [depthAfter, h]

theorem lastProducers_cons (h : m.code[i]? = some instruction) (trail : List Nat) :
    m.lastProducers (i :: trail) = (m.lastProducers trail).change instruction (some i)
      (List.replicate instruction.filled (some i)) := by
  rw [lastProducers, h]

theorem length_locals_lastProducers (m : MethodBody) (trail : List Nat) :
    (m.lastProducers trail).locals.length = m.maxLocals := by
  induction trail with
  | nil => simp [lastProducers]
  | cons i trail ih =>
    rw [lastProducers]
    split
    · rw [Slots.length_locals_change, ih]
    · exact ih

/-- The last producer of a local slot is the instruction that was the last to write it. -/
theorem locals_lastProducers {slot : Nat} (h : slot < m.maxLocals) (trail : List Nat) :
    (m.lastProducers trail).locals[slot]? = some (m.lastWriter? slot trail) := by
  induction trail with
  | nil => simp [lastProducers, lastWriter?, h]
  | cons i trail ih =>
    unfold lastWriter? at ih ⊢
    rw [lastProducers, List.find?_cons]
    cases hcode : m.code[i]? with
    | none => simpa using ih
    | some instruction =>
      simp only [Slots.change, Slots.getElem?_writeLocal, Option.bind_some]
      split
      · next hslot => simp [ih, hslot]
      · next hslot => simp [ih, hslot]

/-! ## Faults -/

/-- An instruction cannot be executed on a stack of a depth, or leads out of the method. -/
inductive Fault (m : MethodBody) (i depth : Nat) : Prop where
  | underflow {instruction : Instruction} (h : m.code[i]? = some instruction)
      (hdepth : depth < instruction.pops)
  | slot {instruction : Instruction} {slot : Nat} (h : m.code[i]? = some instruction)
      (hslot : instruction.localSlot? = some slot) (hrange : m.maxLocals ≤ slot)
  | target {instruction : Instruction} {target : Nat} (h : m.code[i]? = some instruction)
      (htarget : target ∈ instruction.branchTargets) (hrange : m.length ≤ target)
  | fallsOff {instruction : Instruction} (h : m.code[i]? = some instruction)
      (hfalls : instruction.fallsThrough = true) (hrange : m.length ≤ i + 1)

/-- What an instruction without a fault satisfies. -/
theorem not_fault_iff {depth : Nat} (h : m.code[i]? = some instruction) :
    ¬ m.Fault i depth ↔
      instruction.pops ≤ depth ∧
      (∀ slot, instruction.localSlot? = some slot → slot < m.maxLocals) ∧
      (∀ target ∈ instruction.branchTargets, target < m.length) ∧
      (instruction.fallsThrough = true → i + 1 < m.length) := by
  constructor
  · intro hno
    refine ⟨Nat.le_of_not_lt fun hlt => hno (.underflow h hlt), fun slot hslot => ?_,
      fun target ht => ?_, fun hfalls => ?_⟩
    · exact Nat.lt_of_not_le fun hle => hno (.slot h hslot hle)
    · exact Nat.lt_of_not_le fun hle => hno (.target h ht hle)
    · exact Nat.lt_of_not_le fun hle => hno (.fallsOff h hfalls hle)
  · rintro ⟨hdepth, hslots, htargets, hfalls⟩ hfault
    cases hfault with
    | underflow h' hlt =>
      obtain rfl : instruction = _ := Option.some.inj (h.symm.trans h')
      omega
    | slot h' hslot hle =>
      obtain rfl : instruction = _ := Option.some.inj (h.symm.trans h')
      have := hslots _ hslot
      omega
    | target h' ht hle =>
      obtain rfl : instruction = _ := Option.some.inj (h.symm.trans h')
      have := htargets _ ht
      omega
    | fallsOff h' hf hle =>
      obtain rfl : instruction = _ := Option.some.inj (h.symm.trans h')
      have := hfalls hf
      omega

/-- A path on which no instruction that was executed has a fault. -/
inductive CleanPath (m : MethodBody) : List Nat → Nat → Prop where
  | entry (h : 0 < m.length) : CleanPath m [] 0
  | step {trail : List Nat} {i j : Nat} (hpath : CleanPath m trail i)
      (hfault : ¬ m.Fault i (m.depthAfter trail)) (hedge : m.Edge i j) : CleanPath m (i :: trail) j

/-- A clean path arrives at a fault, or two of them arrive with different depths. -/
def IllFormed (m : MethodBody) : Prop :=
  ∃ trail i, m.CleanPath trail i ∧
    (m.Fault i (m.depthAfter trail) ∨
      ∃ trail', m.CleanPath trail' i ∧ m.depthAfter trail' ≠ m.depthAfter trail)

/-- Without a fault, control stays within the method. -/
theorem lt_length_of_edge {depth j : Nat} (hfault : ¬ m.Fault i depth) (hedge : m.Edge i j) :
    j < m.length := by
  obtain ⟨instruction, h, ⟨hfalls, rfl⟩ | hj⟩ := hedge
  · exact Nat.lt_of_not_le fun hle => hfault (.fallsOff h hfalls hle)
  · exact Nat.lt_of_not_le fun hle => hfault (.target h hj hle)

theorem CleanPath.path {trail : List Nat} {i : Nat} (h : m.CleanPath trail i) :
    m.Path trail i := by
  induction h with
  | entry h => exact .entry h
  | step _ hfault hedge ih => exact .step ih hedge (lt_length_of_edge hfault hedge)

end CallFold.MethodBody
