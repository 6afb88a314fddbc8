import CallFold.Catalog

/-!
# Evaluating the calls of a method

The reachable recognised calls of a method are taken in the order of the instructions. A call that
is resolved already is left alone; any other goes to its handler, and what the handler resolves is
seen by the calls that follow. If a handler refuses a call, the evaluation ends there, and what was
resolved before stays in the cache.
-/

namespace CallFold

/-- A reachable call whose signature is in the catalog. -/
structure RecognizedCall where
  site : Nat
  callee : MethodRef
  frame : Frame
  entry : CatalogEntry

/-- A call that an evaluation resolved. -/
structure ResolvedCall where
  site : Nat
  signature : CallSignature
  outcome : Outcome
  registration : Registration
  taggable : Bool
deriving DecidableEq

/-- What an evaluation did: how many calls it recognised, and which it resolved or declined. -/
structure MethodReport where
  recognized : Nat
  resolved : List ResolvedCall
  declined : List Nat
deriving DecidableEq

namespace MethodReport

/-- Whether anything was resolved. -/
def resolvedAny (r : MethodReport) : Bool := !r.resolved.isEmpty

/-- Whether every reachable recognised call is resolved now. -/
def isComplete (r : MethodReport) : Bool := r.declined.isEmpty

end MethodReport

/-- What it takes to evaluate the calls of a method. -/
structure Evaluator where
  graph : FrameGraph
  metadata : Metadata
  catalog : Catalog
  safeCalls : SafeCalls
  maxTraceDepth : Nat

namespace Evaluator

/-- What a handler may consult when a cache holds the calls that are resolved so far. -/
def scope (e : Evaluator) (cache : OutcomeCache) : Scope where
  graph := e.graph
  metadata := e.metadata
  safeCalls := e.safeCalls
  maxTraceDepth := e.maxTraceDepth
  cache := cache

/-- The recognised call at an instruction. -/
def recognize? (e : Evaluator) (site : Nat) : Option RecognizedCall := do
  let callee ← (← e.graph.instruction? site).callee?
  let entry ← e.catalog.get? callee.signature
  let frame ← e.graph.frame? site
  return { site, callee, frame, entry }

/-- The reachable recognised calls in the order of the instructions. -/
def recognizedCalls (e : Evaluator) : List RecognizedCall :=
  (List.range e.graph.length).filterMap e.recognize?

/-- What the handler of a call says, given the calls that are resolved so far. -/
def decide (e : Evaluator) (cache : OutcomeCache) (call : RecognizedCall) :
    Except Error (Option Resolution) :=
  match CallContext.make call.site call.callee call.frame with
  | .error error => .error error
  | .ok context => call.entry.handler (e.scope cache) context

/-- The record of a call that was resolved. -/
def resolvedCall (call : RecognizedCall) (r : Resolution) : ResolvedCall where
  site := call.site
  signature := call.callee.signature
  outcome := r.outcome
  registration := r.registration
  taggable := call.entry.taggable

/-- The calls resolved and the sites declined by an evaluation. -/
structure Decisions where
  resolved : List ResolvedCall
  declined : List Nat

/-- Takes some calls in turn; the cache is returned as it is at the end, or when one was refused. -/
def run (e : Evaluator) : List RecognizedCall → OutcomeCache → OutcomeCache × Except Error Decisions
  | [], cache => (cache, .ok { resolved := [], declined := [] })
  | call :: rest, cache =>
    if cache.contains call.site then e.run rest cache
    else
      match e.decide cache call with
      | .error error => (cache, .error error)
      | .ok none =>
        let (last, result) := e.run rest cache
        (last, result.map fun d => { d with declined := call.site :: d.declined })
      | .ok (some r) =>
        let (last, result) := e.run rest (cache.insert call.site r.outcome).2
        (last, result.map fun d => { d with resolved := resolvedCall call r :: d.resolved })

/-- Evaluates the calls of a method that are not resolved yet. -/
def evaluate (e : Evaluator) (cache : OutcomeCache) : OutcomeCache × Except Error MethodReport :=
  let calls := e.recognizedCalls
  let (last, result) := e.run calls cache
  (last, result.map fun d =>
    { recognized := calls.length, resolved := d.resolved, declined := d.declined })

end Evaluator

end CallFold
