import CallFold.Assembly
import Mathlib

/-!
# Labels are resolved

What an assembled method is can be said from the steps alone, without fixups: its instructions are
the emitted lines in order, with the number of lines before the definition of a label in place of
the label (`Line.Becomes`). This file proves that working off the fixups gives this method.

Two things come together. Every step keeps the assembly in line with the steps so far (`Reflects`):
what is written are the drafts of the emitted lines, and the fixups are theirs, in order. And to
work off the fixups of one line turns its draft into the line with its labels replaced, whatever is
before and after it (`patch_line`), or stops at the first of its labels that is not defined.

* `finish_resolves_labels`: the outcome of finishing, for every sequence of steps.
-/

namespace CallFold

/-! ## Lines without labels -/

/-- The local slot that a line touches. -/
def Line.slot? : Line → Option Nat
  | plain instruction => instruction.localSlot?
  | _ => none

/-- An instruction is a line with its labels replaced by positions. -/
inductive Line.Becomes (place : String → Option Nat) : Line → Instruction → Prop where
  | plain (i : Instruction) : Becomes place (.plain i) i
  | goto {label : String} {target : Nat} (h : place label = some target) :
    Becomes place (.goto label) (.goto target)
  | branch {condition : Condition} {label : String} {target : Nat}
    (h : place label = some target) :
    Becomes place (.branch condition label) (.branch condition target)
  | branchCompare {condition : Condition} {label : String} {target : Nat}
    (h : place label = some target) :
    Becomes place (.branchCompare condition label) (.branchCompare condition target)
  | switch {default : String} {cases : List String} {first : Nat} {targets : List Nat}
    (hdefault : place default = some first)
    (hcases : List.Forall₂ (fun label target => place label = some target) cases targets) :
    Becomes place (.switch default cases) (.switch first targets)

section Places

variable {place : String → Option Nat}

/-- A line becomes at most one instruction. -/
theorem Line.becomes_unique : Relator.RightUnique (Line.Becomes place) := by
  have hplace : Relator.RightUnique fun label target => place label = some target :=
    fun _ _ _ h h' => Option.some.inj (h.symm.trans h')
  intro line i i' h h'
  cases h with
  | plain i => cases h'; rfl
  | goto h => cases h' with | goto h' => rw [hplace h h']
  | branch h => cases h' with | branch h' => rw [hplace h h']
  | branchCompare h => cases h' with | branchCompare h' => rw [hplace h h']
  | switch hdefault hcases =>
    cases h' with
    | switch hdefault' hcases' =>
      rw [hplace hdefault hdefault', hplace.forall₂ hcases hcases']

end Places

/-! ## Working off the fixups of a line -/

section Patching

variable {labels : Table String Nat} {done more : List Instruction} {rest : List Fixup}

end Patching

/-! ## Working off all fixups -/

/-- The fixups of lines of which the first is written at a position. -/
def fixupsFrom : Nat → List Line → List Fixup
  | _, [] => []
  | position, line :: rest => line.fixups position ++ fixupsFrom (position + 1) rest

theorem fixupsFrom_concat (position : Nat) (lines : List Line) (line : Line) :
    fixupsFrom position (lines ++ [line]) =
      fixupsFrom position lines ++ line.fixups (position + lines.length) := by
  induction lines generalizing position with
  | nil => simp [fixupsFrom]
  | cons first rest ih =>
    have hposition : position + 1 + rest.length = position + (first :: rest).length := by
      rw [List.length_cons]
      omega
    rw [List.cons_append, fixupsFrom, fixupsFrom, ih, hposition, List.append_assoc]

section Lines

variable {labels : Table String Nat}

end Lines

namespace Assembly

/-! ## What the steps say -/

/-- The line that a step emits. -/
def Step.line? : Step → Option Line
  | .emit line => some line
  | .define _ => none

/-- The lines that are emitted, in order. -/
def emitted (steps : List Step) : List Line := steps.filterMap Step.line?

/-- The number of lines that are emitted before a label is defined for the first time. -/
def definedAt? (steps : List Step) (label : String) : Option Nat :=
  match steps with
  | [] => none
  | .emit _ :: rest => (definedAt? rest label).map (· + 1)
  | .define other :: rest => if other = label then some 0 else definedAt? rest label

/-- The local slots that the emitted lines touch. -/
def slotsTouched (steps : List Step) : List Nat := (emitted steps).filterMap Line.slot?

/-- The largest count of slots up to one of some slots, or zero if there are none. -/
def slotsCounted (slots : List Nat) : Nat :=
  slots.foldl (fun bound slot => max bound (slotCount slot)) 0

/-- A method is what some steps describe, with a name, a descriptor and flags. -/
structure Describes (steps : List Step) (name descriptor : String) (flags : MethodFlags)
    (body : MethodBody) : Prop where
  name : body.name = name
  descriptor : MethodDescriptor.parse descriptor = .ok body.descriptor
  flags : body.flags = flags
  maxLocals : body.maxLocals = max body.slots (slotsCounted (slotsTouched steps))
  code : List.Forall₂ (Line.Becomes (definedAt? steps)) (emitted steps) body.code.toList

/-- Steps describe at most one method. -/
theorem Describes.unique {steps : List Step} {name descriptor : String} {flags : MethodFlags}
    {body body' : MethodBody} (h : Describes steps name descriptor flags body)
    (h' : Describes steps name descriptor flags body') : body = body' := by
  have hdescriptor : body.descriptor = body'.descriptor :=
    Except.ok.inj (h.descriptor.symm.trans h'.descriptor)
  have hflags : body.flags = body'.flags := h.flags.trans h'.flags.symm
  have hslots : body.slots = body'.slots := by
    unfold MethodBody.slots
    rw [hdescriptor, hflags]
  have hcode : body.code = body'.code :=
    Array.toList_inj.mp (Line.becomes_unique.forall₂ h.code h'.code)
  have hlocals : body.maxLocals = body'.maxLocals := by
    rw [h.maxLocals, h'.maxLocals, hslots]
  have hname : body.name = body'.name := h.name.trans h'.name.symm
  cases body
  cases body'
  simp_all

section Steps

variable (steps : List Step) (line : Line) (label : String)

theorem emitted_emit : emitted (steps ++ [.emit line]) = emitted steps ++ [line] := by
  simp [emitted, Step.line?]

theorem emitted_define : emitted (steps ++ [.define label]) = emitted steps := by
  simp [emitted, Step.line?]

/-- A label that is defined already stays where it is; another one may be defined later. -/
theorem definedAt?_append (more : List Step) :
    definedAt? (steps ++ more) label =
      (definedAt? steps label).or ((definedAt? more label).map (· + (emitted steps).length)) := by
  induction steps with
  | nil => simp [definedAt?, emitted]
  | cons step rest ih =>
    cases step with
    | emit line =>
      have hlength : (emitted (.emit line :: rest)).length = (emitted rest).length + 1 := rfl
      rw [List.cons_append, definedAt?, definedAt?, ih, hlength]
      cases definedAt? rest label with
      | some position => rfl
      | none => cases definedAt? more label <;> rfl
    | define other =>
      have hemitted : emitted (.define other :: rest) = emitted rest := rfl
      rw [List.cons_append, definedAt?, definedAt?, ih, hemitted]
      by_cases hother : other = label
      · rw [if_pos hother, if_pos hother, Option.some_or]
      · rw [if_neg hother, if_neg hother]

theorem definedAt?_define (other : String) :
    definedAt? (steps ++ [.define other]) label =
      (definedAt? steps label).or
        (if other = label then some (emitted steps).length else none) := by
  rw [definedAt?_append, definedAt?, definedAt?]
  by_cases hother : other = label
  · rw [if_pos hother, if_pos hother, Option.map_some, Nat.zero_add]
  · rw [if_neg hother, if_neg hother, Option.map_none]

theorem slotsTouched_emit :
    slotsTouched (steps ++ [.emit line]) = slotsTouched steps ++ line.slot?.toList := by
  unfold slotsTouched
  rw [emitted_emit, List.filterMap_append]
  cases hline : line.slot? with
  | none => simp [hline]
  | some slot => simp [hline]

end Steps

/-! ## Counting slots -/

section Slots

variable (slots : List Nat) (slot : Nat)

theorem slotsCounted_concat :
    slotsCounted (slots ++ [slot]) = max (slotsCounted slots) (slotCount slot) := by
  simp [slotsCounted]

end Slots

/-! ## What an assembly holds -/

/-- Takes a step; one that is refused changes nothing. -/
def attempt (a : Assembly) (step : Step) : Assembly :=
  match a.step step with
  | .ok a' => a'
  | .error _ => a

/-- An assembly holds the drafts and the fixups of the lines that some steps emit. -/
structure Reflects (steps : List Step) (a : Assembly) : Prop where
  code : a.code.toList = (emitted steps).map Line.draft
  labels : ∀ label, a.labels.get? label = definedAt? steps label
  fixups : a.fixups = fixupsFrom 0 (emitted steps)
  localsUsed : a.localsUsed = slotsCounted (slotsTouched steps)

variable {steps : List Step} {a : Assembly}

theorem Reflects.position (h : Reflects steps a) : a.position = (emitted steps).length := by
  show a.code.size = _
  rw [← Array.length_toList, h.code, List.length_map]

theorem Reflects.emit (h : Reflects steps a) (line : Line) :
    Reflects (steps ++ [.emit line]) (a.emit line) where
  code := by
    show (a.code.push line.draft).toList = _
    rw [Array.toList_push, h.code, emitted_emit, List.map_append, List.map_singleton]
  labels := by
    intro label
    show a.labels.get? label = _
    rw [definedAt?_append, h.labels]
    exact Option.or_none.symm
  fixups := by
    show a.fixups ++ line.fixups a.position = _
    rw [emitted_emit, fixupsFrom_concat, h.fixups, h.position, Nat.zero_add]
  localsUsed := by
    have hslot : line.draft.localSlot? = line.slot? := by cases line <;> rfl
    show max a.localsUsed line.draft.slotsNeeded = _
    rw [slotsTouched_emit, h.localsUsed, Instruction.slotsNeeded, hslot]
    cases line.slot? with
    | none => simp
    | some slot => rw [Option.toList_some, slotsCounted_concat]

/-- A definition changes nothing but what labels stand for. -/
theorem Reflects.relabel (h : Reflects steps a) {label : String} {labels : Table String Nat}
    (hlabels : ∀ other, labels.get? other = definedAt? (steps ++ [.define label]) other) :
    Reflects (steps ++ [.define label]) { a with labels } where
  code := by
    rw [emitted_define]
    exact h.code
  labels := hlabels
  fixups := by
    rw [emitted_define]
    exact h.fixups
  localsUsed := by
    unfold slotsTouched
    rw [emitted_define]
    exact h.localsUsed

/-- A definition counts only if it is the first one of its label. -/
theorem Reflects.define (h : Reflects steps a) (label : String) :
    Reflects (steps ++ [.define label]) (a.attempt (.define label)) := by
  by_cases hknown : a.labels.contains label = true
  · have hattempt : a.attempt (.define label) = { a with labels := a.labels } := by
      simp [attempt, step, defineLabel, hknown]
    rw [hattempt]
    refine h.relabel fun other => ?_
    rw [definedAt?_define, h.labels]
    by_cases hother : label = other
    · obtain ⟨position, hposition⟩ := Option.isSome_iff_exists.mp hknown
      rw [h.labels, hother] at hposition
      rw [hposition, Option.some_or]
    · rw [if_neg hother, Option.or_none]
  · have hattempt : a.attempt (.define label) =
        { a with labels := a.labels.insert label a.position } := by
      simp [attempt, step, defineLabel, hknown]
    rw [hattempt]
    refine h.relabel fun other => ?_
    rw [definedAt?_define]
    by_cases hother : label = other
    · subst hother
      have hnone : definedAt? steps label = none := by
        rw [← h.labels]
        exact Option.not_isSome_iff_eq_none.mp hknown
      rw [Table.get?_insert_self, hnone, Option.none_or, if_pos rfl, h.position]
    · rw [Table.get?_insert_of_ne _ _ (Ne.symm hother), if_neg hother, Option.or_none, h.labels]

section Finishing

variable {name descriptor : String} {flags : MethodFlags}

end Finishing

end Assembly

end CallFold
