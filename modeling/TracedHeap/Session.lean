import TracedHeap.Script.Run

/-!
# Sessions

A session makes a fresh heap, runs a script on it step by step, and gives the heap up.

* `Session`           what a session is given;
* `Outcome`, `StepReport`, `Report`
                      how a step ended, what is told of it, and what is told of the session;
* `Session.run`       the report of a session.
-/

namespace TracedHeap

structure Session where
  config : Config := {}
  /-- Whether the container types are registered first. -/
  containers : Bool := true
  /-- Whether the log shows more than warnings. -/
  details : Bool := false
  /-- How many scripted callbacks may run inside one another. -/
  maxScopes : Nat := 40
  steps : List Step

inductive Outcome where
  | ok (reply : Reply)
  | refused (err : Error)
  | halted (halt : Halt)

/-- What is told of a step: how it ended, the sizes of the heap after it, and the log. -/
structure StepReport where
  outcome : Outcome
  live : Nat
  stackDepth : Nat
  frameDepth : Nat
  log : List Entry

structure Report where
  /-- The log of the registration of the container types. -/
  start : List Entry
  steps : List StepReport
  summary : String
  stack : List Value
  stats : Stats
  /-- What cut the release of the heap short. -/
  endHalt : Option Halt
  endLog : List Entry

namespace Session

def takeLog (s : Session) (w : World) : List Entry × World :=
  (w.log.toList.filter (Entry.shown s.details), { w with log := #[] })

def outcomeOf : Except Halt (Except Error Reply) → Outcome
  | .ok (.ok reply) => .ok reply
  | .ok (.error e) => .refused e
  | .error halt => .halted halt

def runStep (s : Session) (r : Runner) (step : Step) (w : World) : StepReport × World :=
  let (ended, w) := (step.run r).run.exec w
  let (log, w) := s.takeLog w
  ({ outcome := outcomeOf ended
     live := w.heap.pool.live
     stackDepth := w.heap.stack.length
     frameDepth := w.heap.frames.depth
     log }, w)

/-- Runs steps in order, whether they fail or not. -/
def runSteps (s : Session) (r : Runner) : List Step → World → List StepReport × World
  | [], w => ([], w)
  | step :: rest, w =>
    let (report, w) := s.runStep r step w
    let (reports, w) := s.runSteps r rest w
    (report :: reports, w)

def start (s : Session) (h : Heap) : World := { heap := h, maxScopes := s.maxScopes }

def opening (s : Session) : Run Unit :=
  if s.containers then do
    let _ ← registerContainers.run
  else pure ()

/-- Runs a session with callbacks run by `r`; a faulty configuration is refused. -/
def runWith (r : Runner) (s : Session) : Except Error Report := do
  let h ← Heap.create s.config
  let (start, w) := s.takeLog (s.opening.exec (s.start h)).2
  let (steps, w) := s.runSteps r s.steps w
  let (ended, last) := (teardown r).exec w
  return {
    start
    steps
    summary := w.heap.summary
    stack := w.heap.stackValues
    stats := w.heap.stats
    endHalt := match ended with
      | .ok _ => none
      | .error halt => some halt
    endLog := (s.takeLog last).1 }

def depth : Nat := 1 <<< 20

def run (s : Session) : Except Error Report := s.runWith (.ofDepth depth)

end Session

end TracedHeap
