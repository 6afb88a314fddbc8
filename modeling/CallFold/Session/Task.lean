import CallFold.FrameGraph.Build
import CallFold.Session.State

/-!
# The analysis of a method

The analysis of a method is a task: it asks the session for what it keeps of the method, and it does
something to the session, one step after another. The methods share the store and the logs, so if
several are analysed at the same time, steps of other tasks can come between any two steps of one.

What is resolved is written only after the evaluation of the whole method has succeeded. A method
that fails is set aside for good.
-/

namespace CallFold

/-- What a task does to the session. -/
inductive Effect where
  /-- Loads the class of the method, if it is not loaded yet. -/
  | load
  | register (registration : Registration)
  | record (call : ResolvedCall)
  | tag (call : ResolvedCall)
  /-- Replaces what is kept of the method. -/
  | keep (state : MethodState)
  /-- Sets the method aside. -/
  | setAside (e : Error)

/-- What is left of the analysis of a method. -/
inductive Task where
  | done (outcome : MethodPass)
  /-- Asks why the method was set aside. -/
  | askFailure (next : Option Error → Task)
  /-- Asks what is kept of the method. -/
  | askState (next : Option MethodState → Task)
  /-- Loads the body of the method. -/
  | load (next : Except Error MethodBody → Task)
  | act (effect : Effect) (next : Task)

namespace Session

/-- The record of a call that was resolved in a method. -/
def recordOf (key : MethodKey) (call : ResolvedCall) : ResolutionRecord where
  method := key
  site := call.site
  signature := call.signature
  outcome := call.outcome

/-- The tag of a call that was resolved in a method. -/
def tagOf (key : MethodKey) (call : ResolvedCall) : CallSiteTag where
  method := key
  site := call.site
  outcome := call.outcome

/-- The session after an effect of the task of a method. -/
def perform (s : Session) (key : MethodKey) : Effect → Session
  | .load => { s with store := (s.store.method s.load key).1 }
  | .register registration => { s with registrations := s.registrations ++ [registration] }
  | .record call => { s with resolutions := s.resolutions ++ [recordOf key call] }
  | .tag call => { s with tags := s.tags ++ [tagOf key call] }
  | .keep state => { s with states := s.states.insert key state }
  | .setAside e => { s with failures := s.failures.insert key e }

end Session

namespace Task

/-- Does some things and goes on. -/
def actAll (effects : List Effect) (next : Task) : Task :=
  effects.foldr act next

/-- What the next step does to the session, if it does anything. -/
def effect? : Task → Option Effect
  | done _ | askFailure _ | askState _ => none
  | load _ => some .load
  | act effect _ => some effect

/-- What is left after the next step. -/
def next (key : MethodKey) (s : Session) : Task → Task
  | done outcome => done outcome
  | askFailure next => next (s.failures.get? key)
  | askState next => next (s.states.get? key)
  | load next => next (s.store.method s.load key).2
  | act _ next => next

/-- Takes all steps in turn. -/
def settle (key : MethodKey) : Task → Session → MethodPass × Session
  | done outcome, s => (outcome, s)
  | askFailure next, s => (next (s.failures.get? key)).settle key s
  | askState next, s => (next (s.states.get? key)).settle key s
  | load next, s => (next (s.store.method s.load key).2).settle key (s.perform key .load)
  | act effect next, s => next.settle key (s.perform key effect)

end Task

namespace Session

/-- What is done about a call that was resolved. -/
def effectsOf (tagCallSites : Bool) (call : ResolvedCall) : List Effect :=
  .register call.registration :: .record call ::
    if call.taggable && tagCallSites then [.tag call] else []

/-- Sets the method aside and ends. -/
def failing (e : Error) : Task :=
  .act (.setAside e) (.done .failed)

/-- Evaluates the calls of a method on a copy of its cache. -/
def evaluation (s : Session) (metadata : Metadata) (graph : FrameGraph) (cache : OutcomeCache) :
    Task :=
  let evaluator : Evaluator :=
    { graph, metadata, catalog := s.catalog, safeCalls := s.safeCalls,
      maxTraceDepth := s.config.maxTraceDepth }
  match evaluator.evaluate cache with
  | (_, .error e) => failing e
  | (staged, .ok report) =>
    .actAll (report.resolved.flatMap (effectsOf s.config.tagCallSites))
      (.act (.keep { graph, cache := staged, complete := report.isComplete })
        (.done (.analyzed report.resolved.length)))

/-- Analyses a method, unless it is complete or was set aside. -/
def analysis (s : Session) (metadata : Metadata) : Task :=
  .askFailure fun
    | some _ => .done .skipped
    | none => .askState fun
      | some state =>
        if state.complete then .done .skipped else s.evaluation metadata state.graph state.cache
      | none => .load fun
        | .error e => failing e
        | .ok body =>
          match FrameGraph.build body with
          | .error e => failing (.frame e)
          | .ok graph => s.evaluation metadata graph .empty

/-- Analyses a method in one go. -/
def analyzeMethod (s : Session) (metadata : Metadata) (key : MethodKey) : MethodPass × Session :=
  (s.analysis metadata).settle key s

end Session

end CallFold
