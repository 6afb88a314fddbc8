/-!
# Descriptors

The compact text by which bytecode names value types and method shapes.

    FieldType  := BaseType | 'L' InternalName ';' | '[' FieldType
    BaseType   := 'Z' | 'B' | 'C' | 'S' | 'I' | 'J' | 'F' | 'D'
    Method     := '(' FieldType* ')' ( FieldType | 'V' )

This file holds the types, their printed form and the well-formedness that the printed form
needs. Reading is in `CallFold.Descriptor.Parse`.
-/

namespace CallFold

/-! ## Primitive types -/

/-- The primitive value types. `void` has a type handle but never occurs in a field type. -/
inductive Primitive where
  | boolean
  | byte
  | char
  | short
  | int
  | long
  | float
  | double
  | void
deriving DecidableEq

namespace Primitive

/-- Every primitive type, in the order of declaration. -/
def all : List Primitive :=
  [.boolean, .byte, .char, .short, .int, .long, .float, .double, .void]

/-- The character that stands for the type in a descriptor. -/
def symbol : Primitive → Char
  | .boolean => 'Z'
  | .byte => 'B'
  | .char => 'C'
  | .short => 'S'
  | .int => 'I'
  | .long => 'J'
  | .float => 'F'
  | .double => 'D'
  | .void => 'V'

/-- The type that a descriptor character stands for. -/
def ofSymbol? : Char → Option Primitive
  | 'Z' => some .boolean
  | 'B' => some .byte
  | 'C' => some .char
  | 'S' => some .short
  | 'I' => some .int
  | 'J' => some .long
  | 'F' => some .float
  | 'D' => some .double
  | 'V' => some .void
  | _ => none

/-- The keyword of the type. -/
def keyword : Primitive → String
  | .boolean => "boolean"
  | .byte => "byte"
  | .char => "char"
  | .short => "short"
  | .int => "int"
  | .long => "long"
  | .float => "float"
  | .double => "double"
  | .void => "void"

theorem ofSymbol?_symbol (p : Primitive) : ofSymbol? p.symbol = some p := by
  cases p <;> rfl

/-- A character is read as a type exactly when it is that type's symbol. -/
theorem ofSymbol?_eq_some_iff {c : Char} {p : Primitive} : ofSymbol? c = some p ↔ c = p.symbol := by
  constructor
  · intro h
    unfold ofSymbol? at h
    split at h <;> simp_all <;> subst h <;> rfl
  · rintro rfl
    exact ofSymbol?_symbol p

end Primitive

/-! ## Field types -/

/-- A field type: a primitive, a class by internal name, or an array of a component. -/
inductive Descriptor where
  | primitive (type : Primitive)
  | object (name : String)
  | array (component : Descriptor)
deriving DecidableEq

/-- Writes a dotted name with slashes in place of dots. -/
def slashed (name : String) : String :=
  String.ofList (name.toList.map fun c => if c = '.' then '/' else c)

/-- Writes a slashed name with dots in place of slashes. -/
def dotted (name : String) : String :=
  String.ofList (name.toList.map fun c => if c = '/' then '.' else c)

namespace Descriptor

/-- The largest number of array dimensions that a descriptor may have. -/
def maxDimensions : Nat := 255

/-- The printed form as a list of characters. -/
def chars : Descriptor → List Char
  | primitive type => [type.symbol]
  | object name => 'L' :: (name.toList ++ [';'])
  | array component => '[' :: component.chars

/-- The printed form. -/
def render (d : Descriptor) : String :=
  String.ofList d.chars

/-- Objects and arrays are references. -/
def isReference : Descriptor → Bool
  | primitive _ => false
  | object _ => true
  | array _ => true

/-- The innermost component of an array, or the type itself. -/
def element : Descriptor → Descriptor
  | array component => component.element
  | d => d

/-- The number of array dimensions. -/
def dimensions : Descriptor → Nat
  | array component => component.dimensions + 1
  | _ => 0

/-- The array of `n` dimensions over `d`. -/
def nest : Nat → Descriptor → Descriptor
  | 0, d => d
  | n + 1, d => array (nest n d)

/--
The name by which a look-up by name finds the type: a keyword, a dotted class name, or for an
array the printed form with dotted class names.
-/
def binaryName : Descriptor → String
  | primitive type => type.keyword
  | object name => dotted name
  | d@(array _) => dotted d.render

/-- The characters that a class name must not contain. -/
def bannedInName (c : Char) : Bool :=
  c = '.' || c = '[' || c = '(' || c = ')'

/-- A name that an object type may carry: not empty, and without a character of the grammar. -/
def ValidName (name : String) : Prop :=
  name.toList ≠ [] ∧ ∀ c ∈ name.toList, bannedInName c = false ∧ c ≠ ';'

/-- The innermost type is a primitive other than `void`, or an object with a valid name. -/
def ValidElement : Descriptor → Prop
  | primitive type => type ≠ .void
  | object name => ValidName name
  | array component => component.ValidElement

/-- A type that has a descriptor: a valid innermost type in at most 255 dimensions. -/
def WellFormed (d : Descriptor) : Prop :=
  d.dimensions ≤ maxDimensions ∧ d.ValidElement

end Descriptor

/-! ## Method shapes -/

/-- Parameter types in order, and the result type unless the method is `void`. -/
structure MethodDescriptor where
  parameters : List Descriptor
  result : Option Descriptor
deriving DecidableEq

namespace MethodDescriptor

/-- Whether a call leaves a value on the stack. -/
def returnsValue (d : MethodDescriptor) : Bool :=
  d.result.isSome

/-- The printed form as a list of characters. -/
def chars (d : MethodDescriptor) : List Char :=
  '(' :: (d.parameters.flatMap Descriptor.chars ++ ')' ::
    match d.result with
    | some type => type.chars
    | none => [Primitive.void.symbol])

/-- The printed form. -/
def render (d : MethodDescriptor) : String :=
  String.ofList d.chars

/-- Every parameter and the result, if there is one, is well formed. -/
def WellFormed (d : MethodDescriptor) : Prop :=
  (∀ p ∈ d.parameters, p.WellFormed) ∧ ∀ r ∈ d.result, r.WellFormed

end MethodDescriptor

end CallFold
