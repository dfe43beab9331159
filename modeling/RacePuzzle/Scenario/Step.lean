import RacePuzzle.Machine.Task

/-! Scripts that drive the jobs, signals and tasks of a machine by name. -/
namespace RacePuzzle

inductive Step
  /-- A step that cannot be read. -/
  | malformed
  | child (parent name : String) (kind : JobRole)
  /-- Without a parent the task's job is a child of the script's own job. -/
  | launch (parent : Option String) (name : String) (body : List Step)
  | signal (name : String)
  | fire (signal : String)
  | cancel (job : String)
  | fail (job : String) (kind : ExceptionKind)
  | wake (sleeper : String) (twice : Bool)
  | log (text : String)
  | throwException (kind : ExceptionKind)
  | delay (duration : Nat)
  | wait (signal : String)
  | awaitSignal (signal : String)
  | join (job : String)
  | awaitJob (job : String)
  | idle (job : String)
  | attempt (body : List Step)
  | scope (kind : JobRole) (name : String) (body : List Step)
  /-- Ends the code of a job, with an exception if one is given. -/
  | complete (job : String) (exception : Option ExceptionKind)
  | yield
  | park (name : String)
  | stash (name : String)

namespace Step

mutual
def work : Step → Nat
  | .launch _ _ body => 2 + scriptWork body
  | .scope _ _ body => 1 + scriptWork body
  | .attempt body => scriptWork body
  | .delay _ | .wait _ | .awaitSignal _ | .join _ | .awaitJob _ | .idle _ | .complete _ _
  | .yield | .park _ => 1
  | _ => 0
def scriptWork : List Step → Nat
  | [] => 0
  | step :: rest => step.work + scriptWork rest
end

end Step

/-- Names for things; each stands for the last thing it was given to. -/
abbrev Directory (α : Type) := List (String × α)

def Directory.assign {α : Type} (directory : Directory α) (name : String) (thing : α) :
    Directory α :=
  (name, thing) :: directory.filter (·.1 != name)

def Directory.find? {α : Type} (directory : Directory α) (name : String) : Option α :=
  directory.lookup name

structure LogEntry where
  time : Nat
  text : String
  deriving DecidableEq, Repr

structure ScenarioEnv where
  jobs : Directory JobId
  signals : Directory SignalId
  sleepers : Directory Ticket
  log : Array LogEntry

inductive ScenarioFrame
  | rest (here : JobId) (script : List Step)
  /-- The end of an attempt: exceptions stop here. -/
  | attempt
  /-- The end of a job's own code. -/
  | close (job : JobId)
  /-- The children of a job have settled. -/
  | settle (job : JobId)
  /-- The children of a job have settled whose outcome is to be logged. -/
  | settleLogged (job : JobId)
  /-- The end of the wait for a job's outcome. -/
  | awaited (job : JobId)
  /-- The end of a task without a job of its own. -/
  | uncaught
  /-- The end of what holds a job. -/
  | release (job : JobId)

def ScenarioFrame.work : ScenarioFrame → Nat
  | .rest _ script => Step.scriptWork script
  | .close _ => 1
  | _ => 0

abbrev ScenarioMachine := FrameMachine ScenarioEnv ScenarioFrame

abbrev ScenarioReached := Reached ScenarioEnv ScenarioFrame

end RacePuzzle
