import CallFold.Member

/-!
# Registrations

A look-up that was evaluated at build time must still be permitted when the program runs. A
registration describes such a look-up; a failing one is described too, so that it goes on failing in
the same way.
-/

namespace CallFold

/-- A look-up that must be permitted at run time. -/
inductive Registration where
  | classLookup (name : String)
  | fieldLookup (owner : TypeHandle) (name : String) (declaredOnly : Bool)
  | methodLookup (owner : TypeHandle) (name : String) (parameters : List TypeHandle)
      (declaredOnly : Bool)
  | constructorLookup (owner : TypeHandle) (parameters : List TypeHandle) (declaredOnly : Bool)
  | bulkQuery (owner : TypeHandle) (query : MemberQuery)
deriving DecidableEq

namespace Registration

/-- The type on which the look-up is performed; a class is looked up on none. -/
def owner? : Registration → Option TypeHandle
  | classLookup _ => none
  | fieldLookup owner .. => some owner
  | methodLookup owner .. => some owner
  | constructorLookup owner .. => some owner
  | bulkQuery owner _ => some owner

/-- Marks a look-up that is restricted to what the class itself declares. -/
def declaredMark (declaredOnly : Bool) : String :=
  if declaredOnly then "declared " else ""

/-- The printed form. -/
def render : Registration → String
  | classLookup name => "class " ++ name
  | fieldLookup owner name declaredOnly =>
    declaredMark declaredOnly ++ "field " ++ owner.render ++ "." ++ name
  | methodLookup owner name parameters declaredOnly =>
    declaredMark declaredOnly ++ "method " ++ owner.render ++ "." ++ name ++
      "(" ++ TypeHandle.renderList parameters ++ ")"
  | constructorLookup owner parameters declaredOnly =>
    declaredMark declaredOnly ++ "constructor " ++ owner.render ++
      "(" ++ TypeHandle.renderList parameters ++ ")"
  | bulkQuery owner query => owner.render ++ "." ++ query.name ++ "()"

end Registration

end CallFold
