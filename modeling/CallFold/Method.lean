import CallFold.Error

/-!
# Methods

Method bodies, the keys that identify them, and the classes that declare them.
-/

namespace CallFold

/-- Access flags of a method. -/
structure MethodFlags where
  bits : UInt16
deriving DecidableEq

namespace MethodFlags

/-- The bits that have a meaning. -/
def known : UInt16 := 0x15ff

/-- Keeps the bits that have a meaning. -/
def ofBits (bits : Nat) : MethodFlags := ⟨bits.toUInt16 &&& known⟩

/-- The flags of a static method and no others. -/
def static : MethodFlags := ⟨0x0008⟩

/-- Whether the method has no receiver. -/
def isStatic (f : MethodFlags) : Bool := f.bits &&& 0x0008 ≠ 0

end MethodFlags

/-- Identifies a method: declaring type, name and descriptor, as written. -/
structure MethodKey where
  declaringType : String
  name : String
  descriptor : String
deriving DecidableEq

/-- The printed form of a key. -/
def MethodKey.render (k : MethodKey) : String :=
  k.declaringType ++ "." ++ k.name ++ k.descriptor

/-- A method: its shape, its number of local slots and its instructions. -/
structure MethodBody where
  name : String
  descriptor : MethodDescriptor
  flags : MethodFlags
  maxLocals : Nat
  code : Array Instruction

/-- The local slots that the receiver and the parameters take on entry. -/
def parameterSlots (descriptor : MethodDescriptor) (flags : MethodFlags) : Nat :=
  descriptor.parameters.length + (!flags.isStatic).toNat

namespace MethodBody

/-- The local slots that the receiver and the parameters take on entry. -/
def slots (m : MethodBody) : Nat :=
  parameterSlots m.descriptor m.flags

/-- The number of instructions. -/
def length (m : MethodBody) : Nat :=
  m.code.size

/-- The key of the method in a declaring type. -/
def key (m : MethodBody) (declaringType : String) : MethodKey where
  declaringType := declaringType
  name := m.name
  descriptor := m.descriptor.render

/-- A method body, if its descriptor can be read and its local slots hold the parameters. -/
def make (name descriptor : String) (flags : MethodFlags) (maxLocals : Nat)
    (code : Array Instruction) : Except Error MethodBody :=
  match MethodDescriptor.parse descriptor with
  | .error e => .error (.descriptor e)
  | .ok descriptor =>
    if maxLocals < parameterSlots descriptor flags then
      .error (.tooFewLocals name (parameterSlots descriptor flags) maxLocals)
    else
      .ok { name, descriptor, flags, maxLocals, code }

end MethodBody

/-- The methods of one declaring type, in the order of declaration. -/
structure ClassCode where
  name : String
  methods : List MethodBody

namespace ClassCode

/-- The first method with a name and a descriptor. -/
def method? (c : ClassCode) (name descriptor : String) : Option MethodBody :=
  c.methods.find? fun m => m.name = name && m.descriptor.render = descriptor

/-- The keys of all methods. -/
def methodKeys (c : ClassCode) : List MethodKey :=
  c.methods.map fun m => m.key c.name

end ClassCode

end CallFold
