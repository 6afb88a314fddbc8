import CallFold.Descriptor.Parse
import CallFold.IndexSet

/-!
# Instructions

The instructions of a stack machine with local slots. Instructions are addressed by their position
in the method, and branch targets are such positions. Every value takes one slot whatever its width,
so that where an argument stands is a function of the number of parameters.

Besides the instructions themselves this file says how each transfers control, what it takes from
the stack and puts there, and which local slot it touches.
-/

namespace CallFold

/-! ## Operands -/

/-- How a call finds the method it runs. -/
inductive InvokeKind where
  | static
  | virtual
  | special
  | interface
deriving DecidableEq

namespace InvokeKind

/-- Every kind, in the order of declaration. -/
def all : List InvokeKind := [.static, .virtual, .special, .interface]

/-- The name of the kind. -/
def name : InvokeKind → String
  | static => "static"
  | virtual => "virtual"
  | special => "special"
  | interface => "interface"

/-- Whether the call takes a receiver from below its arguments. -/
def hasReceiver : InvokeKind → Bool
  | static => false
  | virtual | special | interface => true

end InvokeKind

/-- The identity of a method that is called: declaring type, name and descriptor, as written. -/
structure CallSignature where
  owner : String
  name : String
  descriptor : String
deriving DecidableEq

namespace CallSignature

/-- The printed form. -/
def render (s : CallSignature) : String :=
  s.owner ++ "." ++ s.name ++ s.descriptor

/-- Orders signatures by owner, then by name, then by descriptor. -/
def le (s t : CallSignature) : Bool :=
  if s.owner = t.owner then
    if s.name = t.name then s.descriptor ≤ t.descriptor else s.name ≤ t.name
  else s.owner ≤ t.owner

end CallSignature

/-- What a call instruction calls, and how. The descriptor is the one that the signature spells. -/
structure MethodRef where
  kind : InvokeKind
  signature : CallSignature
  descriptor : MethodDescriptor
  parsed : MethodDescriptor.parse signature.descriptor = .ok descriptor
deriving DecidableEq

namespace MethodRef

/-- A reference whose descriptor is read from the signature. -/
def ofSignature (kind : InvokeKind) (signature : CallSignature) :
    Except DescriptorError MethodRef :=
  match h : MethodDescriptor.parse signature.descriptor with
  | .error e => .error e
  | .ok descriptor => .ok { kind, signature, descriptor, parsed := h }

/-- The number of declared parameters; the receiver is not one of them. -/
def parameterCount (m : MethodRef) : Nat :=
  m.descriptor.parameters.length

/-- The number of stack slots that the call takes. -/
def argumentSlots (m : MethodRef) : Nat :=
  m.parameterCount + m.kind.hasReceiver.toNat

end MethodRef

/-- What a field instruction accesses. -/
structure FieldRef where
  owner : String
  name : String
  type : Descriptor
deriving DecidableEq

/-- A reference whose type is read from a descriptor. -/
def FieldRef.ofDescriptor (owner name descriptor : String) : Except DescriptorError FieldRef :=
  (Descriptor.parse descriptor).map fun type => { owner, name, type }

/-- A constant pushed by `ldc`. Floating-point numbers are given by their bits. -/
inductive Literal where
  | int (value : Int32)
  | long (value : Int64)
  | float (bits : UInt32)
  | double (bits : UInt64)
  | text (value : String)
  | type (descriptor : Descriptor)
deriving DecidableEq

/-- Operators on two values. -/
inductive BinaryOp where
  | add
  | sub
  | mul
  | div
  | rem
  | and
  | or
  | xor
  | shl
  | shr
  | ushr
  | cmp
deriving DecidableEq

/-- Every operator, in the order of declaration. -/
def BinaryOp.all : List BinaryOp :=
  [.add, .sub, .mul, .div, .rem, .and, .or, .xor, .shl, .shr, .ushr, .cmp]

/-- Operators on one value. -/
inductive UnaryOp where
  | neg
  | convert
deriving DecidableEq

/-- Every operator, in the order of declaration. -/
def UnaryOp.all : List UnaryOp := [.neg, .convert]

/-- The conditions on which a branch is taken. -/
inductive Condition where
  | eq
  | ne
  | lt
  | ge
  | gt
  | le
  | null
  | nonnull
deriving DecidableEq

/-- Every condition, in the order of declaration. -/
def Condition.all : List Condition := [.eq, .ne, .lt, .ge, .gt, .le, .null, .nonnull]

/-! ## Instructions -/

/-- One instruction. -/
inductive Instruction where
  | nop
  | pushNull
  | intConst (value : Int32)
  | bytePush (value : Int32)
  | shortPush (value : Int32)
  | ldc (literal : Literal)
  | load (slot : Nat)
  | store (slot : Nat)
  | increment (slot : Nat) (delta : Int32)
  | newArray (element : Descriptor)
  | arrayLength
  | arrayLoad
  | arrayStore
  | dup
  | dupX1
  | pop
  | swap
  | binary (op : BinaryOp)
  | unary (op : UnaryOp)
  | new (className : String)
  | checkCast (type : Descriptor)
  | instanceOf (type : Descriptor)
  | getStatic (field : FieldRef)
  | putStatic (field : FieldRef)
  | getField (field : FieldRef)
  | putField (field : FieldRef)
  | invoke (callee : MethodRef)
  | goto (target : Nat)
  | branch (condition : Condition) (target : Nat)
  | branchCompare (condition : Condition) (target : Nat)
  | switch (default : Nat) (targets : List Nat)
  | ret (value : Bool)
  | raise
deriving DecidableEq

/-- How an instruction transfers control. -/
inductive Flow where
  | sequential
  | conditionalBranch
  | unconditionalBranch
  | call
  | switch
  | ret
  | raise
deriving DecidableEq

/-- Whether control can go on to the instruction after. -/
def Flow.fallsThrough : Flow → Bool
  | sequential | conditionalBranch | call => true
  | unconditionalBranch | switch | ret | raise => false

namespace Instruction

/-- How the instruction transfers control. -/
def flow : Instruction → Flow
  | goto _ => .unconditionalBranch
  | branch .. | branchCompare .. => .conditionalBranch
  | switch .. => .switch
  | ret _ => .ret
  | raise => .raise
  | invoke _ => .call
  | _ => .sequential

/-- The number of values taken from the top of the stack. -/
def pops : Instruction → Nat
  | nop | increment .. | goto _ => 0
  | pushNull | intConst _ | bytePush _ | shortPush _ | ldc _ | load _ | new _ | getStatic _ => 0
  | store _ | pop | putStatic _ | branch .. | switch .. | raise => 1
  | newArray _ | arrayLength | unary _ | checkCast _ | instanceOf _ | getField _ => 1
  | arrayLoad | binary _ => 2
  | putField _ | branchCompare .. => 2
  | arrayStore => 3
  | dup => 1
  | dupX1 | swap => 2
  | invoke callee => callee.argumentSlots
  | ret value => value.toNat

/-- The number of values put on the stack. -/
def pushes : Instruction → Nat
  | nop | increment .. | goto _ => 0
  | pushNull | intConst _ | bytePush _ | shortPush _ | ldc _ | load _ | new _ | getStatic _ => 1
  | store _ | pop | putStatic _ | branch .. | switch .. | raise => 0
  | newArray _ | arrayLength | unary _ | checkCast _ | instanceOf _ | getField _ => 1
  | arrayLoad | binary _ => 1
  | putField _ | branchCompare .. => 0
  | arrayStore => 0
  | dup | swap => 2
  | dupX1 => 3
  | invoke callee => callee.descriptor.returnsValue.toNat
  | ret _ => 0

/-- Whether control can go on to the instruction after. -/
def fallsThrough (i : Instruction) : Bool :=
  i.flow.fallsThrough

/-- The targets that the instruction names; a switch names its default first. -/
def branchTargets : Instruction → List Nat
  | goto target => [target]
  | branch _ target | branchCompare _ target => [target]
  | switch default targets => default :: targets
  | _ => []

/-- The instructions to which control can go from the instruction at `index`. -/
def successors (i : Instruction) (index : Nat) : IndexSet :=
  IndexSet.ofList (if i.fallsThrough then (index + 1) :: i.branchTargets else i.branchTargets)

/-- The method that the instruction calls. -/
def callee? : Instruction → Option MethodRef
  | invoke callee => some callee
  | _ => none

/-- The local slot that the instruction reads or writes. -/
def localSlot? : Instruction → Option Nat
  | load slot | store slot | increment slot _ => some slot
  | _ => none

end Instruction

end CallFold
