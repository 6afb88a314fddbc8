import CallFold.Decimal
import CallFold.Instruction
import CallFold.Text.Quoted

/-!
# Text of instructions

An instruction is printed as its mnemonic and its operands. Floating-point literals are printed as
the shortest decimal that reads back, without an exponent; text literals are quoted.
-/

namespace CallFold

/-- The printed form of an integer. -/
def renderInt (n : Int) : String :=
  match n with
  | .ofNat m => m.repr
  | .negSucc m => "-" ++ (m + 1).repr

/-- The printed form of a literal, in which a suffix tells the wider numbers apart. -/
def Literal.render : Literal → String
  | int value => renderInt value.toInt
  | long value => renderInt value.toInt ++ "L"
  | float bits => Decimal.render Decimal.binary32 bits.toNat ++ "F"
  | double bits => Decimal.render Decimal.binary64 bits.toNat ++ "D"
  | text value => Text.quote value
  | type descriptor => descriptor.render ++ ".class"

/-- The name of an operator. -/
def BinaryOp.name : BinaryOp → String
  | add => "add"
  | sub => "sub"
  | mul => "mul"
  | div => "div"
  | rem => "rem"
  | and => "and"
  | or => "or"
  | xor => "xor"
  | shl => "shl"
  | shr => "shr"
  | ushr => "ushr"
  | cmp => "cmp"

/-- The name of an operator. -/
def UnaryOp.name : UnaryOp → String
  | neg => "neg"
  | convert => "convert"

/-- The name of a condition. -/
def Condition.name : Condition → String
  | eq => "eq"
  | ne => "ne"
  | lt => "lt"
  | ge => "ge"
  | gt => "gt"
  | le => "le"
  | null => "null"
  | nonnull => "nonnull"

/-- The printed form of a field reference. -/
def FieldRef.render (f : FieldRef) : String :=
  f.owner ++ "." ++ f.name ++ ":" ++ f.type.render

namespace Instruction

/-- The mnemonic. -/
def mnemonic : Instruction → String
  | nop => "nop"
  | pushNull => "push_null"
  | intConst _ => "int_const"
  | bytePush _ => "byte_push"
  | shortPush _ => "short_push"
  | ldc _ => "ldc"
  | load _ => "load"
  | store _ => "store"
  | increment .. => "increment"
  | newArray _ => "new_array"
  | arrayLength => "array_length"
  | arrayLoad => "array_load"
  | arrayStore => "array_store"
  | dup => "dup"
  | dupX1 => "dup_x1"
  | pop => "pop"
  | swap => "swap"
  | binary _ => "binary"
  | unary _ => "unary"
  | new _ => "new"
  | checkCast _ => "check_cast"
  | instanceOf _ => "instance_of"
  | getStatic _ => "get_static"
  | putStatic _ => "put_static"
  | getField _ => "get_field"
  | putField _ => "put_field"
  | invoke _ => "invoke"
  | goto _ => "goto"
  | branch .. => "if"
  | branchCompare .. => "if_compare"
  | switch .. => "switch"
  | ret _ => "return"
  | raise => "throw"

/-- A branch target. -/
def renderTarget (target : Nat) : String :=
  "@" ++ target.repr

/-- What follows the mnemonic. -/
def renderOperands : Instruction → String
  | intConst value | bytePush value | shortPush value => " " ++ renderInt value.toInt
  | ldc literal => " " ++ literal.render
  | load slot | store slot => " " ++ slot.repr
  | increment slot delta => " " ++ slot.repr ++ " " ++ renderInt delta.toInt
  | newArray type | checkCast type | instanceOf type => " " ++ type.render
  | binary op => " " ++ op.name
  | unary op => " " ++ op.name
  | new className => " " ++ className
  | getStatic field | putStatic field | getField field | putField field => " " ++ field.render
  | invoke callee => callee.kind.name ++ " " ++ callee.signature.render
  | goto target => " " ++ renderTarget target
  | branch condition target | branchCompare condition target =>
    "_" ++ condition.name ++ " " ++ renderTarget target
  | switch default targets =>
    " default:" ++ renderTarget default ++ String.join (targets.map fun t => " " ++ renderTarget t)
  | nop | pushNull | arrayLength | arrayLoad | arrayStore | dup | dupX1 | pop | swap | ret _
  | raise => ""

/-- The printed form. -/
def render (i : Instruction) : String :=
  i.mnemonic ++ i.renderOperands

end Instruction

end CallFold
