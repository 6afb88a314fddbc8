import CallFold.Member

/-!
# Universes of classes

The classes and interfaces that are known, by binary name. Adding a class replaces one of the same
name, so a name never has two meanings.
-/

namespace CallFold

/-- Access flags of a class or member. -/
structure MemberFlags where
  bits : UInt16
deriving DecidableEq

namespace MemberFlags

/-- The bits that have a meaning. -/
def known : UInt16 := 0x061f

/-- Keeps the bits that have a meaning. -/
def ofBits (bits : Nat) : MemberFlags := ⟨bits.toUInt16 &&& known⟩

/-- The flags of a public member and no others. -/
def publicOnly : MemberFlags := ⟨0x0001⟩

/-- Whether the member is visible everywhere. -/
def isPublic (f : MemberFlags) : Bool := f.bits &&& 0x0001 ≠ 0

end MemberFlags

/-- A field that a class declares. -/
structure FieldInfo where
  name : String
  type : TypeHandle
  flags : MemberFlags
deriving DecidableEq

/-- A method that a class declares. -/
structure MethodInfo where
  name : String
  shape : MethodShape
  flags : MemberFlags
deriving DecidableEq

/-- A constructor that a class declares. -/
structure ConstructorInfo where
  parameters : List TypeHandle
  flags : MemberFlags
deriving DecidableEq

/-- A class or interface: its supertypes by binary name, and what it declares, in order. -/
structure ClassInfo where
  name : String
  flags : MemberFlags
  superclass : Option String
  interfaces : List String
  fields : List FieldInfo
  methods : List MethodInfo
  constructors : List ConstructorInfo
deriving DecidableEq

namespace ClassInfo

/-- The handle of the class. -/
def handle (c : ClassInfo) : TypeHandle := .named c.name

/-- A field of the class as a member. -/
def fieldMember (c : ClassInfo) (f : FieldInfo) : Member := .field c.handle f.name f.type

/-- A method of the class as a member. -/
def methodMember (c : ClassInfo) (m : MethodInfo) : Member := .method c.handle m.name m.shape

/-- A constructor of the class as a member. -/
def constructorMember (c : ClassInfo) (k : ConstructorInfo) : Member :=
  .constructor c.handle k.parameters

end ClassInfo

/-- The known classes, which have distinct names. -/
structure Universe where
  classes : List ClassInfo
  distinct : (classes.map ClassInfo.name).Nodup

namespace Universe

/-- No class is known. -/
def empty : Universe := ⟨[], List.nodup_nil⟩

/-- The number of known classes. -/
def size (u : Universe) : Nat := u.classes.length

/-- Whether no class is known. -/
def isEmpty (u : Universe) : Bool := u.classes.isEmpty

/-- The class of a name. -/
def class? (u : Universe) (name : String) : Option ClassInfo :=
  u.classes.find? fun c => c.name = name

/-- The classes of other names. -/
def others (u : Universe) (name : String) : List ClassInfo :=
  u.classes.filter fun c => c.name ≠ name

theorem nodup_add (u : Universe) (c : ClassInfo) :
    ((c :: u.others c.name).map ClassInfo.name).Nodup := by
  rw [List.map_cons, List.nodup_cons]
  constructor
  · simp [others]
  · exact u.distinct.sublist (List.filter_sublist.map ClassInfo.name)

/-- Adds a class, in place of one of the same name. -/
def add (u : Universe) (c : ClassInfo) : Universe :=
  ⟨c :: u.others c.name, nodup_add u c⟩

/-- The universe of some classes, of which a later one replaces an earlier one of its name. -/
def ofList (classes : List ClassInfo) : Universe :=
  classes.foldl add empty

theorem name_of_class? {u : Universe} {name : String} {c : ClassInfo}
    (h : u.class? name = some c) : c.name = name := by
  simpa using List.find?_some h

theorem mem_of_class? {u : Universe} {name : String} {c : ClassInfo}
    (h : u.class? name = some c) : c ∈ u.classes :=
  List.mem_of_find?_eq_some h

end Universe

end CallFold
