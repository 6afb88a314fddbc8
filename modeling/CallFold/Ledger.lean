import CallFold.Method
import CallFold.Outcome

/-!
# Records of resolved calls

One record for each call that was resolved, for diagnosis, and the list of the call sites that may
be replaced by their results.
-/

namespace CallFold

/-- A resolved call: where it is, what it calls and what it does. -/
structure ResolutionRecord where
  method : MethodKey
  site : Nat
  signature : CallSignature
  outcome : Outcome
deriving DecidableEq

/-- The printed form of a record. -/
def ResolutionRecord.render (r : ResolutionRecord) : String :=
  r.method.render ++ "@" ++ r.site.repr ++ ": " ++ r.signature.render ++ " -> " ++ r.outcome.render

/-- A call site that may be replaced by its result. -/
structure CallSiteTag where
  method : MethodKey
  site : Nat
  outcome : Outcome
deriving DecidableEq

/-- The printed form of a tag. -/
def CallSiteTag.render (t : CallSiteTag) : String :=
  t.method.render ++ "@" ++ t.site.repr ++ ": " ++ t.outcome.render

/-- The records in the order in which they were made. -/
abbrev ResolutionLog : Type := List ResolutionRecord

namespace ResolutionLog

/-- The records of a method in the order of the call sites, and at one site as they were made. -/
def forMethod (log : ResolutionLog) (method : MethodKey) : List ResolutionRecord :=
  (log.filter fun r => r.method = method).mergeSort fun r s => r.site ≤ s.site

/-- The printed form: one record on a line. -/
def render (log : ResolutionLog) : String :=
  String.join (log.map fun r => r.render ++ "\n")

end ResolutionLog

end CallFold
