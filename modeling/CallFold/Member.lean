import CallFold.TypeHandle

/-!
# Members

Resolved fields, methods and constructors, the bulk queries that list them, and the ways in which
looking one up fails.
-/

namespace CallFold

/-- Parameter and result types of a method; no result is the primitive `void`. -/
structure MethodShape where
  parameters : List TypeHandle
  result : TypeHandle
deriving DecidableEq

/-- The printed form of a shape. -/
def MethodShape.render (s : MethodShape) : String :=
  "(" ++ TypeHandle.renderList s.parameters ++ ")" ++ s.result.render

/-- A capability to look members up with the access rights of a class. -/
structure LookupHandle where
  lookupClass : TypeHandle
deriving DecidableEq

/-- A resolved member, with the type that declares it. -/
inductive Member where
  | field (declaring : TypeHandle) (name : String) (type : TypeHandle)
  | method (declaring : TypeHandle) (name : String) (shape : MethodShape)
  | constructor (declaring : TypeHandle) (parameters : List TypeHandle)
deriving DecidableEq

namespace Member

/-- The type that declares the member. -/
def declaring : Member → TypeHandle
  | field declaring .. => declaring
  | method declaring .. => declaring
  | constructor declaring .. => declaring

/-- The name of the member; every constructor has the same name. -/
def name : Member → String
  | field _ name _ => name
  | method _ name _ => name
  | constructor .. => "<init>"

/-- The printed form. -/
def render : Member → String
  | field declaring name type => declaring.render ++ "." ++ name ++ ": " ++ type.render
  | method declaring name shape => declaring.render ++ "." ++ name ++ shape.render
  | constructor declaring parameters =>
    declaring.render ++ "(" ++ TypeHandle.renderList parameters ++ ")"

end Member

/-- The bulk queries that a class handle answers. -/
inductive MemberQuery where
  | fields
  | declaredFields
  | methods
  | declaredMethods
  | constructors
  | declaredConstructors
deriving DecidableEq

namespace MemberQuery

/-- Every query, in the order of declaration. -/
def all : List MemberQuery :=
  [.fields, .declaredFields, .methods, .declaredMethods, .constructors, .declaredConstructors]

/-- The name of the call that asks the query. -/
def name : MemberQuery → String
  | fields => "getFields"
  | declaredFields => "getDeclaredFields"
  | methods => "getMethods"
  | declaredMethods => "getDeclaredMethods"
  | constructors => "getConstructors"
  | declaredConstructors => "getDeclaredConstructors"

/-- Whether the query is restricted to what the class itself declares. -/
def declaredOnly : MemberQuery → Bool
  | declaredFields | declaredMethods | declaredConstructors => true
  | fields | methods | constructors => false

end MemberQuery

/--
Why a look-up fails when the program runs. A look-up that fails is resolved all the same: what it
does is known.
-/
inductive LookupFailure where
  | classNotFound (name : String)
  | noSuchField (owner name : String)
  | noSuchMethod (owner name parameters : String)
  | noSuchConstructor (owner parameters : String)
deriving DecidableEq

/-- The printed form of a failure. -/
def LookupFailure.render : LookupFailure → String
  | classNotFound name => s!"class not found: {name}"
  | noSuchField owner name => s!"no such field: {owner}.{name}"
  | noSuchMethod owner name parameters => s!"no such method: {owner}.{name}({parameters})"
  | noSuchConstructor owner parameters => s!"no such constructor: {owner}({parameters})"

end CallFold
