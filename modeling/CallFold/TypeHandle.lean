import CallFold.Descriptor

/-!
# Type handles

A type as a resolved call sees it: a primitive, a class by binary name, or an array. Handles name
types structurally, so they are compared and logged without any class at hand.
-/

namespace CallFold

/-- A resolved type. A class is named by its dotted binary name. -/
inductive TypeHandle where
  | primitive (type : Primitive)
  | named (name : String)
  | array (component : TypeHandle)
deriving DecidableEq

namespace TypeHandle

/-- The handle that a descriptor names, whether or not the class is known. -/
def ofDescriptor : Descriptor → TypeHandle
  | .primitive type => primitive type
  | .object name => named (dotted name)
  | .array component => array (ofDescriptor component)

/-- The descriptor of the type; `void` has the descriptor `V`. -/
def descriptor : TypeHandle → String
  | primitive type => type.symbol.toString
  | named name => "L" ++ slashed name ++ ";"
  | array component => "[" ++ component.descriptor

/-- The name by which a look-up by name finds the type. -/
def binaryName : TypeHandle → String
  | primitive type => type.keyword
  | named name => name
  | t@(array _) => dotted t.descriptor

/-- The innermost component of an array, or the type itself. -/
def element : TypeHandle → TypeHandle
  | array component => component.element
  | t => t

/-- The number of array dimensions. -/
def dimensions : TypeHandle → Nat
  | array component => component.dimensions + 1
  | _ => 0

/-- The array of `n` dimensions over `t`. -/
def nest : Nat → TypeHandle → TypeHandle
  | 0, t => t
  | n + 1, t => array (nest n t)

/-- The printed form, in which each dimension is a pair of brackets after the element. -/
def render : TypeHandle → String
  | primitive type => type.keyword
  | named name => name
  | array component => component.render ++ "[]"

/-- A list of types, separated by commas. -/
def renderList (types : List TypeHandle) : String :=
  ", ".intercalate (types.map render)

end TypeHandle

end CallFold
