import CallFold.FrameGraph
import CallFold.Metadata
import CallFold.Outcome

/-!
# Scopes

What the analysis of a method may consult: its frame graph, the metadata of the program's types, the
calls that are known not to let arrays escape, the calls that are resolved so far, and how long a
chain of copies may be.
-/

namespace CallFold

/-- A set of calls through which an array may pass without escaping. -/
structure SafeCalls where
  signatures : List CallSignature
  distinct : signatures.Nodup

namespace SafeCalls

/-- No call is safe. -/
def empty : SafeCalls := ⟨[], List.nodup_nil⟩

/-- Whether a call is safe. -/
def contains (s : SafeCalls) (signature : CallSignature) : Bool := signature ∈ s.signatures

/-- Adds a call. -/
def insert (s : SafeCalls) (signature : CallSignature) : SafeCalls :=
  if h : signature ∈ s.signatures then s
  else ⟨signature :: s.signatures, List.nodup_cons.mpr ⟨h, s.distinct⟩⟩

/-- Adds some calls. -/
def extend (s : SafeCalls) (signatures : List CallSignature) : SafeCalls :=
  signatures.foldl insert s

/-- The number of safe calls. -/
def size (s : SafeCalls) : Nat := s.signatures.length

/-- Whether no call is safe. -/
def isEmpty (s : SafeCalls) : Bool := s.signatures.isEmpty

end SafeCalls

/-- What the analysis of a method may consult. -/
structure Scope where
  graph : FrameGraph
  metadata : Metadata
  safeCalls : SafeCalls
  maxTraceDepth : Nat
  cache : OutcomeCache

end CallFold
