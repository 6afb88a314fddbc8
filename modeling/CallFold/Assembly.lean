import CallFold.Method
import CallFold.Table

/-!
# Assembling methods

A method is assembled line by line. Branches may name labels that are defined later; a label stands
for the position of the line that follows its definition.

A branch to labels is first written with targets of zero, and a fixup is noted for each of its
labels: which operand of which instruction the label has to fill. When the method is finished, the
fixups are worked off in the order in which they were noted, so that the first label without a
definition is the one that is reported.

A fixup could also point at something that cannot be filled in. An assembly carries the proof that
this is not so (`Assembly.fitting`): a fixup is noted together with the instruction it fits, and
neither later lines nor other fixups change what operands an instruction has.
-/

namespace CallFold

/-- A line: an instruction as it is, or a branch to labels. -/
inductive Line where
  | plain (instruction : Instruction)
  | goto (label : String)
  | branch (condition : Condition) (label : String)
  | branchCompare (condition : Condition) (label : String)
  | switch (default : String) (cases : List String)
deriving DecidableEq

/-- The instruction that pushes an integer in the most compact way for its size. -/
def Instruction.pushInt (value : Int32) : Instruction :=
  let n := value.toInt
  if -1 ≤ n ∧ n ≤ 5 then intConst value
  else if -128 ≤ n ∧ n ≤ 127 then bytePush value
  else if -32768 ≤ n ∧ n ≤ 32767 then shortPush value
  else ldc (.int value)

/--
The number of local slots up to a slot, the slot itself included. It is counted in a word of 64
bits, so with the last slot that a word can number the count is back at zero.
-/
def slotCount (slot : Nat) : Nat := (slot + 1) % UInt64.size

/-- The number of local slots that an instruction needs, as far as it can be counted. -/
def Instruction.slotsNeeded (i : Instruction) : Nat :=
  match i.localSlot? with
  | some slot => slotCount slot
  | none => 0

/-! ## Fixups -/

/-- The operands of branches that labels can fill. -/
inductive Operand where
  | target
  | switchDefault
  | switchCase (number : Nat)
deriving DecidableEq

/-- A label that has to be filled in, and the operand of the instruction where that happens. -/
structure Fixup where
  position : Nat
  operand : Operand
  label : String
deriving DecidableEq

/-- The instruction that is written for a line, its labels still open. -/
def Line.draft : Line → Instruction
  | plain instruction => instruction
  | goto _ => .goto 0
  | branch condition _ => .branch condition 0
  | branchCompare condition _ => .branchCompare condition 0
  | switch _ cases => .switch 0 (List.replicate cases.length 0)

/-- The fixups of the cases of a switch, of which the first has a number. -/
def caseFixups (position : Nat) : Nat → List String → List Fixup
  | _, [] => []
  | number, label :: rest =>
    ⟨position, .switchCase number, label⟩ :: caseFixups position (number + 1) rest

/-- The fixups of a line that is written at a position; a switch names its default first. -/
def Line.fixups (position : Nat) : Line → List Fixup
  | plain _ => []
  | goto label | branch _ label | branchCompare _ label => [⟨position, .target, label⟩]
  | switch default cases =>
    ⟨position, .switchDefault, default⟩ :: caseFixups position 0 cases

/-! ## Fixups that fit -/

/-- An instruction has an operand. -/
inductive Operand.Fits : Operand → Instruction → Prop where
  | goto {position : Nat} : Fits .target (.goto position)
  | branch {condition : Condition} {position : Nat} : Fits .target (.branch condition position)
  | branchCompare {condition : Condition} {position : Nat} :
    Fits .target (.branchCompare condition position)
  | switchDefault {default : Nat} {targets : List Nat} :
    Fits .switchDefault (.switch default targets)
  | switchCase {number default : Nat} {targets : List Nat} (h : number < targets.length) :
    Fits (.switchCase number) (.switch default targets)

/-- The code has the operand of a fixup. -/
def Fixup.Fits (f : Fixup) (code : Array Instruction) : Prop :=
  ∃ i, code[f.position]? = some i ∧ f.operand.Fits i

theorem Fixup.Fits.push {f : Fixup} {code : Array Instruction} (h : f.Fits code)
    (i : Instruction) : f.Fits (code.push i) := by
  obtain ⟨i', hi', hfits⟩ := h
  have hlt : f.position < code.size := (Array.getElem?_eq_some_iff.mp hi').1
  refine ⟨i', ?_, hfits⟩
  rw [Array.getElem?_push_lt hlt, ← Array.getElem?_eq_getElem hlt]
  exact hi'

theorem fits_caseFixups {code : Array Instruction} {default : Nat} {targets : List Nat}
    {position : Nat} (hcode : code[position]? = some (.switch default targets)) :
    ∀ (number : Nat) (cases : List String), number + cases.length ≤ targets.length →
      ∀ f ∈ caseFixups position number cases, f.Fits code
  | _, [], _, f, hf => by simp [caseFixups] at hf
  | number, label :: rest, hle, f, hf => by
    rw [List.length_cons] at hle
    rcases List.mem_cons.mp hf with rfl | hf
    · exact ⟨_, hcode, .switchCase (by omega)⟩
    · exact fits_caseFixups hcode (number + 1) rest (by omega) f hf

/-- The fixups of a line fit what is written for it. -/
theorem Line.fits_draft (line : Line) (code : Array Instruction) :
    ∀ f ∈ line.fixups code.size, f.Fits (code.push line.draft) := by
  have hlast : (code.push line.draft)[code.size]? = some line.draft := Array.getElem?_push_size
  intro f hf
  cases line with
  | plain i => simp [Line.fixups] at hf
  | goto label =>
    rw [List.mem_singleton.mp hf]
    exact ⟨_, hlast, .goto⟩
  | branch condition label =>
    rw [List.mem_singleton.mp hf]
    exact ⟨_, hlast, .branch⟩
  | branchCompare condition label =>
    rw [List.mem_singleton.mp hf]
    exact ⟨_, hlast, .branchCompare⟩
  | switch default cases =>
    rcases List.mem_cons.mp hf with rfl | hf
    · exact ⟨_, hlast, .switchDefault⟩
    · exact fits_caseFixups hlast 0 cases (by simp) f hf

/--
A method under assembly: the instructions written so far, the labels defined so far, the fixups in
the order in which they were noted, and the number of local slots that the instructions need.
-/
structure Assembly where
  code : Array Instruction
  labels : Table String Nat
  fixups : List Fixup
  localsUsed : Nat
  fitting : ∀ f ∈ fixups, f.Fits code

namespace Assembly

/-- Nothing assembled yet. -/
def empty : Assembly where
  code := #[]
  labels := .empty
  fixups := []
  localsUsed := 0
  fitting := by simp

/-- The position of the next line. -/
def position (a : Assembly) : Nat := a.code.size

/-- Appends a line. -/
def emit (a : Assembly) (line : Line) : Assembly where
  code := a.code.push line.draft
  labels := a.labels
  fixups := a.fixups ++ line.fixups a.position
  localsUsed := max a.localsUsed line.draft.slotsNeeded
  fitting := by
    intro f hf
    rcases List.mem_append.mp hf with hf | hf
    · exact (a.fitting f hf).push line.draft
    · exact line.fits_draft a.code f hf

/-- The position for which a label stands. -/
def labelPosition? (a : Assembly) (label : String) : Option Nat :=
  a.labels.get? label

/-- Lets a label stand for the position of the next line. A label is defined only once. -/
def defineLabel (a : Assembly) (label : String) : Except Error Assembly :=
  if a.labels.contains label then .error (.duplicateLabel label)
  else .ok { a with labels := a.labels.insert label a.position }

/-- One step of assembling. -/
inductive Step where
  | emit (line : Line)
  | define (label : String)
deriving DecidableEq

/-- Takes one step. -/
def step (a : Assembly) : Step → Except Error Assembly
  | .emit line => .ok (a.emit line)
  | .define label => a.defineLabel label

end Assembly

end CallFold
