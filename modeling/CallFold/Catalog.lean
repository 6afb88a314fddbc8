import CallFold.CallContext
import CallFold.Registration
import CallFold.Scope

/-!
# Catalogs of recognised calls

A catalog says, by signature, which calls are recognised and how each is evaluated. A handler
declines a call whose arguments are not all constant; the call may be resolved later. Refusing a
call is for call sites whose shape contradicts the signature.
-/

namespace CallFold

/-- What a handler found out about a call, and the look-up that must be permitted for it. -/
structure Resolution where
  outcome : Outcome
  registration : Registration
deriving DecidableEq

/-- Evaluates a call in a scope: refuses it, declines it or resolves it. -/
abbrev Handler : Type := Scope → CallContext → Except Error (Option Resolution)

/-- How a recognised call is treated, and whether its site may be replaced by the result. -/
structure CatalogEntry where
  handler : Handler
  taggable : Bool

/-- The recognised calls by signature. -/
structure Catalog where
  table : Table CallSignature CatalogEntry

namespace Catalog

/-- No call is recognised. -/
def empty : Catalog := ⟨.empty⟩

/-- Recognises a call, in place of what was registered for its signature. -/
def register (c : Catalog) (signature : CallSignature) (handler : Handler) (taggable : Bool) :
    Catalog :=
  ⟨c.table.insert signature { handler, taggable }⟩

/-- The entry of a signature. -/
def get? (c : Catalog) (signature : CallSignature) : Option CatalogEntry :=
  c.table.get? signature

/-- Whether a signature is recognised. -/
def contains (c : Catalog) (signature : CallSignature) : Bool := c.table.contains signature

/-- The number of recognised signatures. -/
def size (c : Catalog) : Nat := c.table.size

/-- Whether no call is recognised. -/
def isEmpty (c : Catalog) : Bool := c.table.isEmpty

/-- The recognised signatures in order. -/
def signatures (c : Catalog) : List CallSignature :=
  c.table.keys.mergeSort CallSignature.le

/-- The recognised calls only look at their arguments, so all of them are safe. -/
def safeCalls (c : Catalog) : SafeCalls :=
  SafeCalls.empty.extend c.table.keys

end Catalog

end CallFold
