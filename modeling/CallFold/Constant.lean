import CallFold.Scope

/-!
# Constants

Which values are the same whenever control reaches a place. A value with exactly one producer is
followed back through loads and stores of local slots to the instruction that made it. A call that
is resolved gives its outcome; any other instruction is asked whether it makes a constant of the
kind that is wanted.
-/

namespace CallFold

/-! ## Kinds of constants -/

/-- The kinds of values that may be asked for. -/
inductive ConstantKind where
  | text
  | boolean
  | type
  | parameterList
  | lookupHandle
deriving DecidableEq

namespace ConstantKind

/-- Every kind, in the order of declaration. -/
def all : List ConstantKind := [.text, .boolean, .type, .parameterList, .lookupHandle]

/-- The name of the kind. -/
def name : ConstantKind → String
  | text => "text"
  | boolean => "boolean"
  | type => "type"
  | parameterList => "parameter-list"
  | lookupHandle => "lookup-handle"

/-- The values of the kind. -/
@[reducible]
def Value : ConstantKind → Type
  | text => String
  | boolean => Bool
  | type => TypeHandle
  | parameterList => MethodShape
  | lookupHandle => LookupHandle

end ConstantKind

/-- The primitive type that a field of a wrapper class holds. -/
def primitiveTypeField? (owner name : String) : Option Primitive :=
  if name = "TYPE" then
    match owner with
    | "java/lang/Boolean" => some .boolean
    | "java/lang/Byte" => some .byte
    | "java/lang/Character" => some .char
    | "java/lang/Short" => some .short
    | "java/lang/Integer" => some .int
    | "java/lang/Long" => some .long
    | "java/lang/Float" => some .float
    | "java/lang/Double" => some .double
    | "java/lang/Void" => some .void
    | _ => none
  else none

namespace ConstantKind

/-- The text that an instruction pushes. -/
def textLeaf? : Instruction → Option String
  | .ldc (.text value) => some value
  | _ => none

/-- The truth value that an instruction pushes: one of the two canonical small integers. -/
def booleanLeaf? : Instruction → Option Bool
  | .intConst value => if value = 0 then some false else if value = 1 then some true else none
  | _ => none

/-- The type that an instruction pushes: a reference type that is known, or a primitive type. -/
def typeLeaf? (m : Metadata) : Instruction → Option TypeHandle
  | .ldc (.type descriptor) =>
    if descriptor.isReference then m.resolveDescriptor descriptor else none
  | .getStatic field => (primitiveTypeField? field.owner field.name).map .primitive
  | _ => none

/--
The constant of a kind that an instruction makes by itself. Parameter lists and look-up handles are
never constant.
-/
def leaf? (m : Metadata) (i : Instruction) : (k : ConstantKind) → Option k.Value
  | text => textLeaf? i
  | boolean => booleanLeaf? i
  | type => typeLeaf? m i
  | parameterList => none
  | lookupHandle => none

/-- The result of a resolved call as a constant of a kind: only types are both. -/
def ofResolved? (v : ResolvedValue) : (k : ConstantKind) → Option k.Value
  | type => match v with
    | .type handle => some handle
    | .member _ | .members _ => none
  | text => none
  | boolean => none
  | parameterList => none
  | lookupHandle => none

end ConstantKind

/-! ## Inference -/

/--
An integer that is written in the code: a value whose only producer is an instruction that pushes
it. Copies are not followed.
-/
def FrameGraph.literalInt? (g : FrameGraph) (value : IndexSet) : Option Int32 := do
  match ← g.instruction? (← value.single?) with
  | .intConst v | .bytePush v | .shortPush v | .ldc (.int v) => some v
  | _ => none

namespace Scope

/-- Follows a value through at most `hops` producers to a constant of a kind. -/
def trace (s : Scope) (k : ConstantKind) : Nat → IndexSet → Option k.Value
  | 0, _ => none
  | hops + 1, value =>
    match value.single? with
    | none => none
    | some producer =>
      match s.graph.node? producer with
      | none => none
      | some (.load slot, frame) =>
        match frame.slot? slot with
        | some held => s.trace k hops held
        | none => none
      | some (.store _, frame) =>
        match frame.top? with
        | some stored => s.trace k hops stored
        | none => none
      | some (.invoke callee, _) =>
        match s.cache.get? producer with
        | some (.resolved result) => ConstantKind.ofResolved? result k
        | some (.failed _) => none
        | none => ConstantKind.leaf? s.metadata (.invoke callee) k
      | some (instruction, _) => ConstantKind.leaf? s.metadata instruction k

/-- The constant of a kind that a value is known to be. -/
def infer (s : Scope) (k : ConstantKind) (value : IndexSet) : Option k.Value :=
  s.trace k (s.maxTraceDepth + 1) value

end Scope

end CallFold
