import CallFold.Instruction

/-!
# Errors

Every cause for which reading, assembling or analysing a method is refused, with its wording. A
cause that lies in the bytecode itself is malformed code; the others are label faults, failed loads
and the refusals of call handlers.
-/

namespace CallFold

/-- Why a method has no frames: the fault, and the instruction at which it was found. -/
inductive FrameError where
  | underflow (index : Nat)
  | loadOutOfRange (slot index : Nat)
  | writeOutOfRange (slot index maxLocals : Nat)
  | targetOutOfRange (target index length : Nat)
  | fallsOffEnd (index : Nat)
  | depthMismatch (index present incoming : Nat)
deriving DecidableEq

/-- The wording of each fault. -/
def FrameError.message : FrameError → String
  | underflow index => s!"Stack underflow at instruction {index}"
  | loadOutOfRange slot index => s!"Local slot {slot} out of range at instruction {index}"
  | writeOutOfRange slot index maxLocals =>
    s!"Local slot {slot} out of range at instruction {index} (max locals {maxLocals})"
  | targetOutOfRange target index length =>
    s!"Branch target {target} out of range at instruction {index} " ++
      s!"(method has {length} instructions)"
  | fallsOffEnd index =>
    s!"Execution falls off the end of the method after instruction {index}"
  | depthMismatch index present incoming =>
    s!"Stack depth mismatch at merge into instruction {index}: {present} vs {incoming}"

/-- Why a call site does not have the shape that is asked of it. -/
inductive CallError where
  | missingArguments (signature : CallSignature) (site slots depth : Nat)
  | noReceiver (signature : CallSignature) (site : Nat)
  | noParameter (signature : CallSignature) (site index : Nat)
deriving DecidableEq

/-- The wording of each fault. -/
def CallError.message : CallError → String
  | missingArguments signature site slots depth =>
    s!"Call to {signature.render} at {site} takes {slots} arguments but the stack holds {depth}"
  | noReceiver signature site => s!"Static call to {signature.render} at {site} has no receiver"
  | noParameter signature site index =>
    s!"Call to {signature.render} at {site} has no parameter {index}"

/-- Why a method cannot be loaded. -/
inductive LoadError where
  | unknownType
  | noMethod (name descriptor : String)
deriving DecidableEq

/-- The wording of each reason. -/
def LoadError.message : LoadError → String
  | unknownType => "unknown type"
  | noMethod name descriptor => s!"no method {name}{descriptor}"

/-- Every cause of a refusal. -/
inductive Error where
  | descriptor (cause : DescriptorError)
  | tooFewLocals (method : String) (needed declared : Nat)
  | frame (cause : FrameError)
  | call (cause : CallError)
  | duplicateLabel (label : String)
  | undefinedLabel (label : String)
  | load (type : String) (cause : LoadError)
  | refused (reason : String)
deriving DecidableEq

namespace Error

/-- Whether the cause lies in the bytecode itself. -/
def isMalformed : Error → Bool
  | descriptor _ | tooFewLocals .. | frame _ | call _ => true
  | duplicateLabel _ | undefinedLabel _ | load .. | refused _ => false

/-- The wording of each cause. -/
def message : Error → String
  | descriptor cause => cause.message
  | tooFewLocals method needed declared =>
    s!"Method '{method}' needs {needed} parameter slots but declares {declared} locals"
  | frame cause => cause.message
  | call cause => cause.message
  | duplicateLabel label => s!"Label '{label}' is already defined"
  | undefinedLabel label => s!"Label '{label}' is referenced but never defined"
  | load type cause => s!"Failed to load bytecode for '{type}': {cause.message}"
  | refused reason => reason

/-- The wording with which a failed method is reported. -/
def report (e : Error) : String :=
  if e.isMalformed then "Malformed - " ++ e.message else e.message

end Error

end CallFold
