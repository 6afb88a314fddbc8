import CallFold.Member
import CallFold.Table

/-!
# Outcomes of calls

What a resolved call is known to do when the program runs: return a value, or fail. The outcomes of
a method's call sites are kept in a cache in which an entry is written at most once.
-/

namespace CallFold

/-- The value that a resolved call returns. -/
inductive ResolvedValue where
  | type (handle : TypeHandle)
  | member (member : Member)
  | members (members : List Member)
deriving DecidableEq

/-- The printed form of a value; a list stands between brackets. -/
def ResolvedValue.render : ResolvedValue → String
  | type handle => handle.render
  | member m => m.render
  | members ms => "[" ++ ", ".intercalate (ms.map Member.render) ++ "]"

/-- What a call always does. -/
inductive Outcome where
  | resolved (value : ResolvedValue)
  | failed (failure : LookupFailure)
deriving DecidableEq

namespace Outcome

/-- The value that the call returns. -/
def value? : Outcome → Option ResolvedValue
  | resolved value => some value
  | failed _ => none

/-- Whether the call fails. -/
def isFailure : Outcome → Bool
  | resolved _ => false
  | failed _ => true

/-- The printed form. -/
def render : Outcome → String
  | resolved value => value.render
  | failed failure => "throws " ++ failure.render

end Outcome

/-- The outcomes of call sites by instruction index. -/
structure OutcomeCache where
  table : Table Nat Outcome

namespace OutcomeCache

/-- No call site is resolved. -/
def empty : OutcomeCache := ⟨.empty⟩

/-- The outcome of a call site. -/
def get? (c : OutcomeCache) (site : Nat) : Option Outcome := c.table.get? site

/-- Whether a call site is resolved. -/
def contains (c : OutcomeCache) (site : Nat) : Bool := c.table.contains site

/-- Records an outcome, unless the call site is resolved already; the flag says whether it did. -/
def insert (c : OutcomeCache) (site : Nat) (outcome : Outcome) : Bool × OutcomeCache :=
  if c.contains site then (false, c) else (true, ⟨c.table.insert site outcome⟩)

/-- The number of resolved call sites. -/
def size (c : OutcomeCache) : Nat := c.table.size

/-- Whether no call site is resolved. -/
def isEmpty (c : OutcomeCache) : Bool := c.table.isEmpty

/-- The entries in the order of the call sites. -/
def toList (c : OutcomeCache) : List (Nat × Outcome) :=
  c.table.entries.mergeSort fun a b => a.1 ≤ b.1

end OutcomeCache

end CallFold
