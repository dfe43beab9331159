import RacePuzzle.Program.ExceptionKind
import RacePuzzle.Time.Timetable

/-! Jobs and signals. A job is a scope, a launched task or the background in which detached tasks
run; the jobs form a tree along which cancellation runs down and failure runs up. A job that nobody
holds any more has left the tree: neither its parent nor its children reach it. A signal fires once,
and each job has one that fires when the job settles. -/
namespace RacePuzzle

abbrev JobId := Nat

abbrev SignalId := Nat

inductive JobRole
  /-- A failing child task fails the scope. -/
  | scope
  /-- Failures of child tasks are ignored. -/
  | supervisor
  /-- Reports its own failure to its parent. -/
  | task
  /-- The supervisor of detached tasks. -/
  | background
  deriving DecidableEq, Repr

def JobRole.absorbsFailures : JobRole → Bool
  | .supervisor | .background => true
  | .scope | .task => false

inductive Outcome
  | completed
  | failed (kind : ExceptionKind)
  | cancelled
  deriving DecidableEq, Repr

/-- What one who waits for the job gets. -/
def Outcome.completion : Outcome → Completion
  | .completed => .ok ()
  | .failed kind => .error kind
  | .cancelled => .error .cancellation

/-- A suspended wait of a job, which its cancellation interrupts. -/
inductive OpenWait
  | timer
  | signal (wait : WaitId)
  deriving DecidableEq, Repr

structure Job where
  kind : JobRole
  /-- How many hold the job: names, and tasks that run in it or wait for it. -/
  holders : Nat
  cancelled : Bool
  /-- The first failure, of the job's own code or of a child. -/
  failure : Option ExceptionKind
  /-- The parent has heard of the failure. -/
  failureReported : Bool
  /-- Present once the job has settled. -/
  outcome : Option Outcome
  /-- The suspended waits by the numbers of their waiters, oldest first. -/
  pending : List (Nat × OpenWait)
  /-- The children that have not settled, oldest first. Some may be held by nobody. -/
  children : List JobId
  parent : Option JobId
  /-- The task to wake when the last child has settled. -/
  idleSleeper : Option Ticket
  /-- Fires when the job settles. -/
  completion : SignalId
  deriving Repr

def Job.isHeld (job : Job) : Bool := 0 < job.holders

/-- The outcome of a job that settles now: a failure counts for more than a cancellation. -/
def Job.finalOutcome (job : Job) : Outcome :=
  match job.failure with
  | some kind => .failed kind
  | none => if job.cancelled then .cancelled else .completed

structure Signal where
  fired : Bool
  /-- The waits that the signal resolves, in the order in which they began. -/
  waiters : List WaitId
  deriving DecidableEq, Repr

def Signal.unfired : Signal := ⟨false, []⟩

end RacePuzzle
