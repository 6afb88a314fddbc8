import CallFold.CodeStore
import CallFold.Evaluation
import CallFold.Ledger
import CallFold.Reflection

/-!
# What a session keeps

The settings of a session, what it keeps of each method, what all methods share, and the summaries
of its passes.
-/

namespace CallFold

/-- The settings of a session. -/
structure Config where
  /-- Whether calls are resolved at all. -/
  enabled : Bool := true
  /-- How many copies of a value are followed. -/
  maxTraceDepth : Nat := 64
  /-- How many passes are run at most to reach a stable state. -/
  maxPasses : Nat := 16
  /-- Whether the methods of a pass are analysed at the same time. Only the logs show it. -/
  parallel : Bool := true
  /-- Whether call sites that may be replaced are listed. -/
  tagCallSites : Bool := true
deriving DecidableEq

namespace Config

/-- The default settings, with the methods of a pass analysed one after another. -/
def sequential : Config := { parallel := false }

/-- Settings under which nothing is resolved. -/
def disabled : Config := { enabled := false }

/-- The default settings with other bounds. -/
def bounded (maxTraceDepth maxPasses : Nat) : Config := { maxTraceDepth, maxPasses }

end Config

/-- What is kept of a method between passes. -/
structure MethodState where
  graph : FrameGraph
  cache : OutcomeCache
  complete : Bool

/-- What a pass did with a method. -/
inductive MethodPass where
  | skipped
  | analyzed (resolved : Nat)
  | failed
deriving DecidableEq

/-- What a pass did. -/
structure PassSummary where
  pass : Nat
  analyzed : Nat
  skipped : Nat
  resolved : Nat
  failed : List MethodKey
deriving DecidableEq

namespace PassSummary

/-- Whether the pass resolved something, so that another one may resolve more. -/
def requiresAnotherPass (s : PassSummary) : Bool := 0 < s.resolved

/-- Adds what was done with one method. -/
def add (s : PassSummary) (key : MethodKey) : MethodPass → PassSummary
  | .skipped => { s with skipped := s.skipped + 1 }
  | .analyzed resolved =>
    { s with analyzed := s.analyzed + 1, resolved := s.resolved + resolved }
  | .failed => { s with failed := s.failed ++ [key] }

end PassSummary

/--
The order in which the workers of a pass move, pass by pass: at each place stands the position of
the worker that moves next. A session has no say in it.
-/
abbrev Schedule : Type := Nat → List Nat

/-- The state of an analysis over many methods. -/
structure Session where
  config : Config
  load : Loader
  catalog : Catalog
  safeCalls : SafeCalls
  schedule : Schedule
  store : CodeStore
  states : Table MethodKey MethodState
  failures : Table MethodKey Error
  registrations : List Registration
  resolutions : ResolutionLog
  tags : List CallSiteTag
  passes : Nat

namespace Session

/-- A new session, which recognises the reflective look-ups. -/
def start (config : Config) (load : Loader) (schedule : Schedule := fun _ => []) : Session where
  config := config
  load := load
  catalog := .reflection
  safeCalls := Catalog.reflection.safeCalls
  schedule := schedule
  store := .empty
  states := .empty
  failures := .empty
  registrations := []
  resolutions := []
  tags := []
  passes := 0

/-- Recognises other calls. Only these are safe then. -/
def withCatalog (s : Session) (catalog : Catalog) : Session :=
  { s with catalog, safeCalls := catalog.safeCalls }

/-- Declares more calls safe. -/
def withSafeCalls (s : Session) (signatures : List CallSignature) : Session :=
  { s with safeCalls := s.safeCalls.extend signatures }

/-! ## Views -/

/-- The outcomes kept for a method. -/
def cache? (s : Session) (key : MethodKey) : Option OutcomeCache :=
  (s.states.get? key).map MethodState.cache

/-- The outcome kept for a call site. -/
def outcome? (s : Session) (key : MethodKey) (site : Nat) : Option Outcome :=
  (s.cache? key).bind fun cache => cache.get? site

/-- Whether every reachable recognised call of a method is resolved. -/
def isComplete (s : Session) (key : MethodKey) : Bool :=
  (s.states.get? key).any MethodState.complete

/-- Why a method was set aside. -/
def failure? (s : Session) (key : MethodKey) : Option Error :=
  s.failures.get? key

end Session

end CallFold
