import CallFold.Member

/-!
# Metadata

What the build knows about the types of a program, as the look-ups that it answers. Calls are
evaluated against metadata alone; no code of the program runs.
-/

namespace CallFold

/-- The look-ups by which types and members are found. -/
structure Metadata where
  /-- Finds a type by binary name. Keywords of primitive types are not names. -/
  classForName : String → Option TypeHandle
  /-- Finds a field of a type by name; the flag asks for what the type itself declares. -/
  lookupField : TypeHandle → String → Bool → Except LookupFailure Member
  /-- Finds a method of a type by name and exact parameter types. -/
  lookupMethod : TypeHandle → String → List TypeHandle → Bool → Except LookupFailure Member
  /-- Finds a constructor of a type by exact parameter types. Constructors are not inherited. -/
  lookupConstructor : TypeHandle → List TypeHandle → Bool → Except LookupFailure Member
  /-- Answers a bulk query, which never fails. -/
  members : TypeHandle → MemberQuery → List Member

/-- Resolves a descriptor, given how class names are resolved. -/
def resolveWith (classForName : String → Option TypeHandle) : Descriptor → Option TypeHandle
  | .primitive type => some (.primitive type)
  | .object name => classForName (dotted name)
  | .array component => (resolveWith classForName component).map .array

/-- Finds the type that a descriptor names, if every class in it is known. -/
def Metadata.resolveDescriptor (m : Metadata) (d : Descriptor) : Option TypeHandle :=
  resolveWith m.classForName d

end CallFold
