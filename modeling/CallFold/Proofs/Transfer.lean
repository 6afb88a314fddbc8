import CallFold.Frame.Transfer
import Mathlib.Data.List.Forall2

/-!
# One shape for every instruction

An instruction looks at the slots, may write one local slot, and replaces some values on top of the
stack by others. `Slots.change` is that shape for slots of any contents. A frame that accepts an
instruction changes in this way (`Frame.execute_eq_ok_iff`), with the instruction itself as the
producer of everything new; `dup` is the one instruction that fills fewer stack slots than it pushes
values, because it leaves the value that it copies in place.

Slots of two kinds can be related one by one. `Slots.Related.change` carries this across an
instruction and `Frame.Below.related` across a merge of frames, so whoever follows something along
the control flow has only to look at what an instruction puts into a slot.
-/

namespace CallFold

namespace Instruction

/-- The local slot that the instruction writes. -/
def writtenSlot? : Instruction → Option Nat
  | store slot | increment slot _ => some slot
  | _ => none

/-- The number of stack slots that the instruction empties. -/
def cleared : Instruction → Nat
  | dup => 0
  | i => i.pops

/-- The number of stack slots that the instruction fills. -/
def filled : Instruction → Nat
  | dup => 1
  | i => i.pushes

/-- What is filled and emptied makes up the change of the depth. -/
theorem filled_add_sub {i : Instruction} {depth : Nat} (h : i.pops ≤ depth) :
    i.filled + (depth - i.cleared) = depth - i.pops + i.pushes := by
  cases i with
  | dup =>
    simp only [pops, filled, cleared, pushes] at h ⊢
    omega
  | _ => simp only [filled, cleared]; omega

end Instruction

/-! ## Slots -/

/-- Something for every local slot, and for every stack slot from the top down. -/
structure Slots (α : Type) where
  locals : List α
  stack : List α

namespace Slots

variable {α β : Type}

/-- Writes a local slot, if there is one to write. -/
def writeLocal (locals : List α) (slot : Option Nat) (written : α) : List α :=
  match slot with
  | some slot => locals.set slot written
  | none => locals

/-- The slots after an instruction, given what it writes and what it puts on the stack. -/
def change (c : Slots α) (i : Instruction) (written : α) (filled : List α) : Slots α where
  locals := writeLocal c.locals i.writtenSlot? written
  stack := filled ++ c.stack.drop i.cleared

@[simp]
theorem length_writeLocal (locals : List α) (slot : Option Nat) (written : α) :
    (writeLocal locals slot written).length = locals.length := by
  cases slot <;> simp [writeLocal]

@[simp]
theorem length_locals_change (c : Slots α) (i : Instruction) (written : α) (filled : List α) :
    (c.change i written filled).locals.length = c.locals.length := by
  simp [change]

theorem length_stack_change {c : Slots α} {i : Instruction} {filled : List α} (written : α)
    (h : i.pops ≤ c.stack.length) (hf : filled.length = i.filled) :
    (c.change i written filled).stack.length = c.stack.length - i.pops + i.pushes := by
  rw [← Instruction.filled_add_sub h]
  simp [change, hf]

/-- A written slot holds what was written, and every other slot what it held. -/
theorem getElem?_writeLocal (locals : List α) (slot : Option Nat) (written : α) (k : Nat) :
    (writeLocal locals slot written)[k]? =
      if slot = some k then (locals[k]?).map fun _ => written else locals[k]? := by
  cases slot with
  | none => simp [writeLocal]
  | some s =>
    simp only [writeLocal, List.getElem?_set, Option.some.injEq]
    split
    · next h =>
      subst h
      by_cases hs : s < locals.length
      · simp [hs]
      · simp [hs]
    · rfl

theorem forall₂_replicate {R : α → β → Prop} {x : α} {y : β} (h : R x y) (n : Nat) :
    List.Forall₂ R (List.replicate n x) (List.replicate n y) := by
  induction n with
  | zero => exact List.Forall₂.nil
  | succ n ih => exact List.Forall₂.cons h ih

/-- Slots related one by one. -/
structure Related (R : α → β → Prop) (c : Slots α) (d : Slots β) : Prop where
  locals : List.Forall₂ R c.locals d.locals
  stack : List.Forall₂ R c.stack d.stack

theorem forall₂_writeLocal {R : α → β → Prop} {l : List α} {l' : List β} {slot : Option Nat}
    {x : α} {y : β} (h : List.Forall₂ R l l') (hx : slot.isSome = true → R x y) :
    List.Forall₂ R (writeLocal l slot x) (writeLocal l' slot y) := by
  cases slot with
  | none => exact h
  | some s =>
    simp only [writeLocal]
    induction h generalizing s with
    | nil => exact List.Forall₂.nil
    | cons hab _ ih =>
      cases s with
      | zero => exact List.Forall₂.cons (hx rfl) ‹_›
      | succ s => exact List.Forall₂.cons hab (ih s fun _ => hx rfl)

/-- Related slots stay related if what an instruction puts into them is. -/
theorem Related.change {R : α → β → Prop} {c : Slots α} {d : Slots β} {i : Instruction} {x : α}
    {y : β} {xs : List α} {ys : List β} (h : Related R c d)
    (hwritten : i.writtenSlot?.isSome = true → R x y) (hfilled : List.Forall₂ R xs ys) :
    Related R (c.change i x xs) (d.change i y ys) where
  locals := forall₂_writeLocal h.locals hwritten
  stack := List.rel_append hfilled (List.forall₂_drop _ h.stack)

theorem Related.imp {R S : α → β → Prop} {c : Slots α} {d : Slots β} (h : Related R c d)
    (hRS : ∀ x y, R x y → S x y) : Related S c d :=
  ⟨h.locals.imp hRS, h.stack.imp hRS⟩

/-! ## Places -/

end Slots

/-- A local slot, or a stack slot by its distance from the top. -/
inductive Place where
  | slot (index : Nat)
  | stack (below : Nat)
deriving DecidableEq

/-- Where the content of a place was before an instruction, unless the instruction put it there. -/
def Instruction.before (i : Instruction) : Place → Option Place
  | .slot index => if i.writtenSlot? = some index then none else some (.slot index)
  | .stack below =>
    if below < i.filled then none else some (.stack (below - i.filled + i.cleared))

namespace Instruction

variable {i : Instruction} {old : Place}

theorem before_slot_eq_none_iff {index : Nat} :
    i.before (.slot index) = none ↔ i.writtenSlot? = some index := by
  simp [before]

theorem before_stack_eq_none_iff {below : Nat} :
    i.before (.stack below) = none ↔ below < i.filled := by
  simp [before]

theorem before_slot_eq_some_iff {index : Nat} :
    i.before (.slot index) = some old ↔ i.writtenSlot? ≠ some index ∧ old = .slot index := by
  by_cases h : i.writtenSlot? = some index <;> simp [before, h, eq_comm]

theorem before_stack_eq_some_iff {below : Nat} :
    i.before (.stack below) = some old ↔
      i.filled ≤ below ∧ old = .stack (below - i.filled + i.cleared) := by
  rw [← Nat.not_lt]
  by_cases h : below < i.filled <;> simp [before, h, eq_comm]

end Instruction

namespace Slots

variable {α β : Type}

/-- The content of a place. -/
def get? (c : Slots α) : Place → Option α
  | .slot index => c.locals[index]?
  | .stack below => c.stack[below]?

theorem forall₂_getElem? {R : α → β → Prop} {l : List α} {l' : List β} {k : Nat} {x : α}
    (h : List.Forall₂ R l l') (hx : l[k]? = some x) : ∃ y, l'[k]? = some y ∧ R x y := by
  induction h generalizing k with
  | nil => simp at hx
  | cons hab _ ih =>
    cases k with
    | zero =>
      simp only [List.getElem?_cons_zero, Option.some.injEq] at hx
      exact ⟨_, rfl, hx ▸ hab⟩
    | succ k => exact ih hx

theorem Related.get? {R : α → β → Prop} {c : Slots α} {d : Slots β} {place : Place} {x : α}
    (h : Related R c d) (hx : c.get? place = some x) : ∃ y, d.get? place = some y ∧ R x y := by
  cases place with
  | slot index => exact forall₂_getElem? h.locals hx
  | stack below => exact forall₂_getElem? h.stack hx

/-- What an instruction does not put into a place was somewhere before. -/
theorem get?_change_of_before {c : Slots α} {i : Instruction} {written : α} {filled : List α}
    {place old : Place} (hlength : filled.length = i.filled) (h : i.before place = some old) :
    (c.change i written filled).get? place = c.get? old := by
  cases place with
  | slot index =>
    obtain ⟨hne, rfl⟩ := Instruction.before_slot_eq_some_iff.mp h
    simp [get?, change, getElem?_writeLocal, hne]
  | stack below =>
    obtain ⟨hle, rfl⟩ := Instruction.before_stack_eq_some_iff.mp h
    simp only [get?, change]
    rw [List.getElem?_append_right (by omega), List.getElem?_drop, hlength]
    congr 1
    omega

/-- What an instruction puts into a place is what it writes, or one of what it fills slots with. -/
theorem get?_change_of_new {c : Slots α} {i : Instruction} {written x : α} {filled : List α}
    {place : Place} (hlength : filled.length = i.filled) (h : i.before place = none)
    (hx : (c.change i written filled).get? place = some x) :
    i.writtenSlot?.isSome = true ∧ x = written ∨ x ∈ filled := by
  cases place with
  | slot index =>
    have hslot := Instruction.before_slot_eq_none_iff.mp h
    rw [get?, change, getElem?_writeLocal, if_pos hslot] at hx
    obtain ⟨_, _, rfl⟩ := Option.map_eq_some_iff.mp hx
    exact Or.inl ⟨by rw [hslot]; rfl, rfl⟩
  | stack below =>
    have hlt := Instruction.before_stack_eq_none_iff.mp h
    rw [get?, change, List.getElem?_append_left (by omega)] at hx
    exact Or.inr (List.mem_of_getElem? hx)

/-- An instruction that puts one thing everywhere puts it into each new place. -/
theorem get?_change_replicate {c : Slots α} {i : Instruction} {place : Place} (x : α)
    (h : i.before place = none) (hslot : ∀ k, place = .slot k → k < c.locals.length) :
    (c.change i x (List.replicate i.filled x)).get? place = some x := by
  cases place with
  | slot index =>
    have hwritten := Instruction.before_slot_eq_none_iff.mp h
    rw [get?, change, getElem?_writeLocal, if_pos hwritten]
    simp [hslot index rfl]
  | stack below =>
    have hlt := Instruction.before_stack_eq_none_iff.mp h
    rw [get?, change, List.getElem?_append_left (by simpa using hlt)]
    simp [hlt]

end Slots

/-! ## Frames -/

namespace IndexSet

instance : HasSubset IndexSet := ⟨fun s t => ∀ i ∈ s, i ∈ t⟩

theorem subset_def {s t : IndexSet} : s ⊆ t ↔ ∀ i ∈ s, i ∈ t := Iff.rfl

theorem grows_eq_false_iff {s t : IndexSet} : s.grows t = false ↔ t ⊆ s := by
  rw [← Bool.not_eq_true, grows_eq_true_iff, subset_def]
  constructor
  · intro h i hi
    exact Classical.byContradiction fun hn => h ⟨i, hi, hn⟩
  · rintro h ⟨i, hi, hn⟩
    exact hn (h i hi)

end IndexSet

namespace Frame

/-- The slots of a frame. -/
def view (f : Frame) : Slots IndexSet := ⟨f.locals, f.stack⟩

/-- Every slot of `f` has at most the producers that it has in `g`. -/
def Below (f g : Frame) : Prop := Slots.Related (· ⊆ ·) f.view g.view

theorem Below.refl (f : Frame) : f.Below f where
  locals := List.forall₂_same.mpr fun _ _ _ hi => hi
  stack := List.forall₂_same.mpr fun _ _ _ hi => hi

theorem Below.depth_eq {f g : Frame} (h : f.Below g) : f.depth = g.depth :=
  h.stack.length_eq

theorem Below.length_locals {f g : Frame} (h : f.Below g) : f.locals.length = g.locals.length :=
  h.locals.length_eq

theorem forall₂_trans {α β γ : Type} {R : α → β → Prop} {S : β → γ → Prop} {T : α → γ → Prop}
    (hRST : ∀ x y z, R x y → S y z → T x z) {l : List α} {m : List β} {n : List γ}
    (h : List.Forall₂ R l m) (h' : List.Forall₂ S m n) : List.Forall₂ T l n := by
  induction h generalizing n with
  | nil =>
    cases h'
    exact List.Forall₂.nil
  | cons hab _ ih =>
    cases h' with
    | cons hbc hrest => exact List.Forall₂.cons (hRST _ _ _ hab hbc) (ih hrest)

theorem Below.trans {f g h : Frame} (hfg : f.Below g) (hgh : g.Below h) : f.Below h where
  locals := forall₂_trans (fun _ _ _ h1 h2 i hi => h2 i (h1 i hi)) hfg.locals hgh.locals
  stack := forall₂_trans (fun _ _ _ h1 h2 i hi => h2 i (h1 i hi)) hfg.stack hgh.stack

/-- What is related to the sets of a frame is related to larger sets, if the relation allows it. -/
theorem Below.related {α : Type} {R : IndexSet → α → Prop} {f g : Frame} {c : Slots α}
    (h : f.Below g) (hmono : ∀ s t x, s ⊆ t → R s x → R t x) (hf : Slots.Related R f.view c) :
    Slots.Related R g.view c where
  locals := by
    refine forall₂_trans (S := R) (R := fun t s => s ⊆ t) ?_ ?_ hf.locals
    · exact fun t s x hst hs => hmono s t x hst hs
    · exact List.Forall₂.flip h.locals
  stack := by
    refine forall₂_trans (S := R) (R := fun t s => s ⊆ t) ?_ ?_ hf.stack
    · exact fun t s x hst hs => hmono s t x hst hs
    · exact List.Forall₂.flip h.stack

/-! ## Merging -/

theorem forall₂_joinSlots_left {l m : List IndexSet} :
    List.Forall₂ (· ⊆ ·) l (joinSlots l m) := by
  induction l generalizing m with
  | nil => cases m <;> exact List.Forall₂.nil
  | cons s rest ih =>
    cases m with
    | nil => exact List.forall₂_same.mpr fun _ _ _ hi => hi
    | cons t rest' =>
      exact List.Forall₂.cons (fun i hi => IndexSet.mem_union.mpr (Or.inl hi)) ih

theorem forall₂_joinSlots_right {l m : List IndexSet} (h : l.length = m.length) :
    List.Forall₂ (· ⊆ ·) m (joinSlots l m) := by
  induction l generalizing m with
  | nil =>
    rw [List.length_nil] at h
    rw [List.length_eq_zero_iff.mp h.symm]
    exact List.Forall₂.nil
  | cons s rest ih =>
    cases m with
    | nil => simp at h
    | cons t rest' =>
      refine List.Forall₂.cons (fun i hi => IndexSet.mem_union.mpr (Or.inr hi)) (ih ?_)
      simpa using h

theorem forall₂_of_growsSlots {l m : List IndexSet} (h : l.length = m.length)
    (hg : growsSlots l m = false) : List.Forall₂ (· ⊆ ·) m l := by
  induction l generalizing m with
  | nil =>
    rw [List.length_nil] at h
    rw [List.length_eq_zero_iff.mp h.symm]
    exact List.Forall₂.nil
  | cons s rest ih =>
    cases m with
    | nil => simp at h
    | cons t rest' =>
      rw [growsSlots, Bool.or_eq_false_iff] at hg
      refine List.Forall₂.cons (IndexSet.grows_eq_false_iff.mp hg.1) (ih ?_ hg.2)
      simpa using h

theorem merge_eq_ok_iff {f g merged : Frame} {index : Nat} {changed : Bool} :
    f.merge g index = (.ok changed, merged) ↔
      f.depth = g.depth ∧ merged = f.join g ∧ changed = f.grows g := by
  unfold merge
  split
  · next h => simp [h, eq_comm, and_comm]
  · next h => simp [h]

theorem merge_eq_error_iff {f g merged : Frame} {index : Nat} {e : FrameError} :
    f.merge g index = (.error e, merged) ↔
      f.depth ≠ g.depth ∧ e = .depthMismatch index f.depth g.depth ∧ merged = f := by
  unfold merge
  split
  · next h => simp [h]
  · next h => simp [h, eq_comm]

theorem below_join_left (f g : Frame) : f.Below (f.join g) :=
  ⟨forall₂_joinSlots_left, forall₂_joinSlots_left⟩

theorem below_join_right {f g : Frame} (hl : f.locals.length = g.locals.length)
    (hd : f.depth = g.depth) : g.Below (f.join g) :=
  ⟨forall₂_joinSlots_right hl, forall₂_joinSlots_right hd⟩

/-- A merge that changes nothing has nothing to add. -/
theorem below_of_grows_eq_false {f g : Frame} (hl : f.locals.length = g.locals.length)
    (hd : f.depth = g.depth) (hg : f.grows g = false) : g.Below f := by
  rw [grows, Bool.or_eq_false_iff] at hg
  exact ⟨forall₂_of_growsSlots hl hg.1, forall₂_of_growsSlots hd hg.2⟩

/-- A producer in a slot of a join stands in that slot of one of the two. -/
theorem mem_joinSlots {l m : List IndexSet} {k p : Nat} {s : IndexSet}
    (hs : (joinSlots l m)[k]? = some s) (hp : p ∈ s) :
    (∃ t, l[k]? = some t ∧ p ∈ t) ∨ ∃ t, m[k]? = some t ∧ p ∈ t := by
  induction l generalizing m k with
  | nil => cases m <;> simp [joinSlots] at hs
  | cons t rest ih =>
    cases m with
    | nil => exact Or.inl ⟨s, hs, hp⟩
    | cons t' rest' =>
      cases k with
      | zero =>
        simp only [joinSlots, List.getElem?_cons_zero, Option.some.injEq] at hs
        subst hs
        rcases IndexSet.mem_union.mp hp with hp | hp
        · exact Or.inl ⟨t, rfl, hp⟩
        · exact Or.inr ⟨t', rfl, hp⟩
      | succ k =>
        simp only [joinSlots, List.getElem?_cons_succ] at hs ⊢
        exact ih hs

/-! ## Executing -/

/-- The frame has what an instruction takes: enough values, and the local slot. -/
structure Accepts (f : Frame) (i : Instruction) : Prop where
  depth : i.pops ≤ f.depth
  slot : ∀ slot, i.localSlot? = some slot → slot < f.locals.length

/-- The frame after the instruction at an index, which is the producer of everything new. -/
def after (f : Frame) (index : Nat) (i : Instruction) : Frame where
  locals := Slots.writeLocal f.locals i.writtenSlot? (.singleton index)
  stack := List.replicate i.filled (.singleton index) ++ f.stack.drop i.cleared

theorem view_after (f : Frame) (index : Nat) (i : Instruction) :
    (f.after index i).view =
      f.view.change i (.singleton index) (List.replicate i.filled (.singleton index)) :=
  rfl

theorem ite_eq_ok_iff {α ε : Type} {p : Prop} [Decidable p] {x y : α} {e : ε} :
    (if p then Except.ok x else Except.error e) = .ok y ↔ p ∧ y = x := by
  split
  · next h => simp [h, eq_comm]
  · next h => simp [h]

theorem accepts_iff {f : Frame} {i : Instruction} :
    f.Accepts i ↔ i.pops ≤ f.depth ∧ ∀ slot, i.localSlot? = some slot → slot < f.locals.length :=
  ⟨fun h => ⟨h.depth, h.slot⟩, fun h => ⟨h.1, h.2⟩⟩

/-- An instruction can be executed exactly on the frames that accept it. -/
theorem execute_eq_ok_iff {f g : Frame} {index : Nat} {i : Instruction} :
    f.execute index i = .ok g ↔ f.Accepts i ∧ g = f.after index i := by
  rw [accepts_iff]
  cases i with
  | load slot =>
    rw [execute, ite_eq_ok_iff]
    simp [after, push, Instruction.pops, Instruction.pushes, Instruction.localSlot?,
      Instruction.writtenSlot?, Instruction.filled, Instruction.cleared, Slots.writeLocal]
  | store slot =>
    cases f with
    | mk locals stack =>
      cases stack with
      | nil => simp [execute, depth, Instruction.pops]
      | cons top rest =>
        simp only [execute, write, ite_eq_ok_iff]
        simp [after, depth, Instruction.pops, Instruction.pushes, Instruction.localSlot?,
          Instruction.writtenSlot?, Instruction.filled, Instruction.cleared, Slots.writeLocal]
  | increment slot delta =>
    simp only [execute, write, ite_eq_ok_iff]
    simp [after, Instruction.pops, Instruction.pushes, Instruction.localSlot?,
      Instruction.writtenSlot?, Instruction.filled, Instruction.cleared, Slots.writeLocal]
  | dup =>
    cases f with
    | mk locals stack =>
      cases stack with
      | nil => simp [execute, depth, Instruction.pops]
      | cons top rest =>
        simp [execute, after, push, depth, Instruction.pops, Instruction.localSlot?,
          Instruction.writtenSlot?, Instruction.filled, Instruction.cleared, Slots.writeLocal,
          eq_comm]
  | _ =>
    simp only [execute, ite_eq_ok_iff]
    simp [after, Instruction.localSlot?, Instruction.writtenSlot?, Instruction.filled,
      Instruction.cleared, Slots.writeLocal]

theorem depth_after {f : Frame} {index : Nat} {i : Instruction} (h : f.Accepts i) :
    (f.after index i).depth = f.depth - i.pops + i.pushes := by
  have hdepth : i.pops ≤ f.view.stack.length := h.depth
  exact Slots.length_stack_change (.singleton index) hdepth List.length_replicate

theorem length_locals_after (f : Frame) (index : Nat) (i : Instruction) :
    (f.after index i).locals.length = f.locals.length :=
  Slots.length_writeLocal ..

/-- An instruction keeps slots related to those of a frame, if the new contents are related. -/
theorem related_after {α : Type} {R : IndexSet → α → Prop} {f : Frame} {c : Slots α}
    {index : Nat} {i : Instruction} {written : α} {filled : List α}
    (h : Slots.Related R f.view c)
    (hwritten : i.writtenSlot?.isSome = true → R (.singleton index) written)
    (hlength : filled.length = i.filled) (hfilled : ∀ x ∈ filled, R (.singleton index) x) :
    Slots.Related R (f.after index i).view (c.change i written filled) := by
  rw [view_after]
  refine h.change hwritten ?_
  rw [← hlength]
  clear hlength
  induction filled with
  | nil => exact List.Forall₂.nil
  | cons x rest ih =>
    exact List.Forall₂.cons (hfilled x List.mem_cons_self)
      (ih fun y hy => hfilled y (List.mem_cons_of_mem _ hy))

end Frame

end CallFold
