import CallFold.Descriptor.Parse
import CallFold.Metadata
import CallFold.Universe.Hierarchy

/-!
# Look-ups in a universe

How a universe finds types by name, single members, and the members that a bulk query lists. A
look-up for what a class itself declares sees all of it; any other sees only public members, also
those of the classes above.
-/

namespace CallFold.Universe

/-! ## Types -/

/-- The class from which arrays have their public methods. -/
def rootClass : String := "java.lang.Object"

/-- The handle of a class, if it is known. -/
def classHandle? (u : Universe) (name : String) : Option TypeHandle :=
  (u.class? name).map ClassInfo.handle

/--
Finds a type by binary name. The name of an array is its descriptor with dots, so it is read as a
descriptor with slashes.
-/
def classForName (u : Universe) (name : String) : Option TypeHandle :=
  if name.toList.head? = some '[' then
    match Descriptor.parse (slashed name) with
    | .ok d => resolveWith u.classHandle? d
    | .error _ => none
  else u.classHandle? name

/-- The class behind a handle; arrays and primitive types have none. -/
def ownClass? (u : Universe) : TypeHandle → Option ClassInfo
  | .named name => u.class? name
  | .primitive _ | .array _ => none

/-- The classes whose public fields a type has. -/
def fieldSources (u : Universe) : TypeHandle → List ClassInfo
  | .named name => u.ancestors name
  | .primitive _ | .array _ => []

/-- The classes whose public methods a type has. -/
def methodSources (u : Universe) : TypeHandle → List ClassInfo
  | .named name => u.ancestors name
  | .array _ => u.ancestors rootClass
  | .primitive _ => []

/-! ## Single members -/

/-- The result of a look-up that may have found nothing. -/
def foundOr (failure : LookupFailure) : Option Member → Except LookupFailure Member
  | some member => .ok member
  | none => .error failure

/-- Finds a field by name. -/
def lookupField (u : Universe) (owner : TypeHandle) (name : String) (declaredOnly : Bool) :
    Except LookupFailure Member :=
  foundOr (.noSuchField owner.render name) <|
    if declaredOnly then
      (u.ownClass? owner).bind fun c =>
        (c.fields.find? fun f => f.name = name).map c.fieldMember
    else
      (u.fieldSources owner).findSome? fun c =>
        (c.fields.find? fun f => f.name = name && f.flags.isPublic).map c.fieldMember

/-- Finds a method by name and exact parameter types. -/
def lookupMethod (u : Universe) (owner : TypeHandle) (name : String)
    (parameters : List TypeHandle) (declaredOnly : Bool) : Except LookupFailure Member :=
  let fits (m : MethodInfo) : Bool := m.name = name && m.shape.parameters = parameters
  foundOr (.noSuchMethod owner.render name (TypeHandle.renderList parameters)) <|
    if declaredOnly then
      (u.ownClass? owner).bind fun c => (c.methods.find? fits).map c.methodMember
    else
      (u.methodSources owner).findSome? fun c =>
        (c.methods.find? fun m => fits m && m.flags.isPublic).map c.methodMember

/-- Finds a constructor by exact parameter types. -/
def lookupConstructor (u : Universe) (owner : TypeHandle) (parameters : List TypeHandle)
    (declaredOnly : Bool) : Except LookupFailure Member :=
  foundOr (.noSuchConstructor owner.render (TypeHandle.renderList parameters)) <|
    (u.ownClass? owner).bind fun c =>
      (c.constructors.find? fun k =>
        k.parameters = parameters && (declaredOnly || k.flags.isPublic)).map c.constructorMember

/-! ## Bulk queries -/

/-- What tells methods apart: the name and the parameter types. -/
def methodKey (m : MethodInfo) : String × List TypeHandle := (m.name, m.shape.parameters)

/-- Keeps the first of the methods with the same key, which hides the others. -/
def keepFirst (seen : List (String × List TypeHandle)) :
    List (ClassInfo × MethodInfo) → List (ClassInfo × MethodInfo)
  | [] => []
  | (c, m) :: rest =>
    if methodKey m ∈ seen then keepFirst seen rest
    else (c, m) :: keepFirst (methodKey m :: seen) rest

/-- The public methods of some classes, in order, each with its class. -/
def publicMethods (sources : List ClassInfo) : List (ClassInfo × MethodInfo) :=
  sources.flatMap fun c => (c.methods.filter fun m => m.flags.isPublic).map (c, ·)

/-- Lists the members for which a query asks. -/
def members (u : Universe) (owner : TypeHandle) : MemberQuery → List Member
  | .declaredFields =>
    ((u.ownClass? owner).map fun c => c.fields.map c.fieldMember).getD []
  | .declaredMethods =>
    ((u.ownClass? owner).map fun c => c.methods.map c.methodMember).getD []
  | .declaredConstructors =>
    ((u.ownClass? owner).map fun c => c.constructors.map c.constructorMember).getD []
  | .constructors =>
    ((u.ownClass? owner).map fun c =>
      (c.constructors.filter fun k => k.flags.isPublic).map c.constructorMember).getD []
  | .fields =>
    (u.fieldSources owner).flatMap fun c =>
      (c.fields.filter fun f => f.flags.isPublic).map c.fieldMember
  | .methods =>
    (keepFirst [] (publicMethods (u.methodSources owner))).map fun (c, m) => c.methodMember m

/-- A universe as metadata. -/
def metadata (u : Universe) : Metadata where
  classForName := u.classForName
  lookupField := u.lookupField
  lookupMethod := u.lookupMethod
  lookupConstructor := u.lookupConstructor
  members := u.members

end CallFold.Universe
