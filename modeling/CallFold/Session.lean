import CallFold.Session.Task

/-!
# Sessions

The analysis of many methods in passes. A session keeps for each method its frame graph and the
outcomes of its calls. A pass evaluates each requested method that still has declined calls, and a
method that fails does not disturb the others.

A pass gives each of its methods a worker. The workers take their steps one after another, or, if
the methods are analysed at the same time, in an order that the session does not choose.

The metadata is an argument of every pass: the universe may grow from one pass to the next.
-/

namespace CallFold

/-- A method, and what is left of its analysis. -/
structure Worker where
  key : MethodKey
  task : Task

namespace Worker

/-- The worker after its next step. -/
def next (w : Worker) (s : Session) : Worker :=
  { w with task := w.task.next w.key s }

/-- The session after the next step of a worker. -/
def perform (w : Worker) (s : Session) : Session :=
  match w.task.effect? with
  | some effect => s.perform w.key effect
  | none => s

/-- Takes the next step of the worker at each position of a schedule, if there is one. -/
def interleave : List Nat → List Worker → Session → List Worker × Session
  | [], workers, s => (workers, s)
  | position :: rest, workers, s =>
    match workers[position]? with
    | none => interleave rest workers s
    | some w => interleave rest (workers.set position (w.next s)) (w.perform s)

/-- Lets the workers come to their ends in turn. -/
def settleAll : List Worker → PassSummary → Session → PassSummary × Session
  | [], summary, s => (summary, s)
  | w :: rest, summary, s =>
    let (outcome, s') := w.task.settle w.key s
    settleAll rest (summary.add w.key outcome) s'

end Worker

namespace Session

/-! ## Passes -/

/-- The keys of a list that are not in `seen`, each where it stands first. -/
def newKeys (seen : List MethodKey) : List MethodKey → List MethodKey
  | [] => []
  | key :: rest => if key ∈ seen then newKeys seen rest else key :: newKeys (key :: seen) rest

/-- The keys of a list without repetitions, each where it stands first. -/
def distinctKeys (keys : List MethodKey) : List MethodKey :=
  newKeys [] keys

/-- A worker for each of some methods. -/
def workers (s : Session) (metadata : Metadata) (keys : List MethodKey) : List Worker :=
  keys.map fun key => { key, task := s.analysis metadata }

/-- Runs a pass over some methods. A key that is given twice is analysed once. -/
def runPass (s : Session) (metadata : Metadata) (methods : List MethodKey) :
    PassSummary × Session :=
  let pass := s.passes + 1
  let begun := { s with passes := pass }
  if s.config.enabled then
    let schedule := if s.config.parallel then s.schedule pass else []
    let (workers, s') :=
      Worker.interleave schedule (s.workers metadata (distinctKeys methods)) begun
    Worker.settleAll workers ⟨pass, 0, 0, 0, []⟩ s'
  else (⟨pass, 0, methods.length, 0, []⟩, begun)

/-- Runs at most `limit` passes, and none after one that resolves nothing. -/
def runPasses (metadata : Metadata) (methods : List MethodKey) :
    Nat → Session → List PassSummary × Session
  | 0, s => ([], s)
  | limit + 1, s =>
    let (summary, s') := s.runPass metadata methods
    if summary.requiresAnotherPass then
      let (summaries, last) := runPasses metadata methods limit s'
      (summary :: summaries, last)
    else ([summary], s')

/-- Runs passes until one resolves nothing, or as many as are allowed. -/
def runUntilStable (s : Session) (metadata : Metadata) (methods : List MethodKey) :
    List PassSummary × Session :=
  runPasses metadata methods s.config.maxPasses s

end Session

end CallFold
