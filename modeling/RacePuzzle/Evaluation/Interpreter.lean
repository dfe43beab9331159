import RacePuzzle.Evaluation.Trace
import RacePuzzle.Machine.Task
import RacePuzzle.Program.Source

/-! What the statements of a program do on a machine. Code runs until it ends or has to wait; in
the second case it leaves the frames that say how to go on. -/
namespace RacePuzzle

structure ProgramEnv where
  /-- The job of the tasks that `scopeLaunch` starts. -/
  background : JobId
  /-- The handles bound so far, latest first. -/
  handles : List (String × Referent)
  trace : Array TraceEntry
  /-- How the whole program ended, and when. -/
  ending : Option (Completion × Nat)

inductive ProgramFrame
  /-- The rest of a body that runs in the job. -/
  | rest (job : JobId) (body : List Statement)
  /-- The end of a statement. -/
  | leave (statement : StatementId)
  | catching (statement : StatementId) (kind : ExceptionKind)
  /-- The end of a job's own code. -/
  | close (job : JobId)
  /-- The children of a job have settled. -/
  | settle (job : JobId)
  /-- The end of the wait for a deferred result. -/
  | awaited (statement : StatementId) (job : JobId) (result : String)
  /-- The end of the program. -/
  | program

abbrev ProgramMachine := FrameMachine ProgramEnv ProgramFrame

abbrev ProgramReached := Reached ProgramEnv ProgramFrame

namespace Interpreter

def record (statement : StatementId) (mark : Mark) (m : ProgramMachine) : ProgramMachine :=
  m.updateEnv fun env => { env with trace := env.trace.push ⟨statement, mark, m.now⟩ }

/-- Nothing is printed after the program has ended. -/
def print (statement : StatementId) (value : String) (m : ProgramMachine) : ProgramMachine :=
  if m.env.ending.isNone then record statement (.printed value) m else m

def bind (statement : StatementId) (var : String) (handle : Referent) (m : ProgramMachine) :
    ProgramMachine :=
  record statement (.bound handle) <|
    m.updateEnv fun env => { env with handles := (var, handle) :: env.handles }

def refer (statement : StatementId) (var : String) (m : ProgramMachine) :
    Option Referent × ProgramMachine :=
  let handle := m.env.handles.lookup var
  (handle, record statement (.referred handle) m)

/-- The signal that fires when what the handle stands for is complete. -/
def signal? (handle : Referent) (m : ProgramMachine) : Option SignalId :=
  match handle with
  | .task job | .deferred job _ => (m.job? job).map (·.completion)
  | .bare signal => some signal

def launch (parent : JobId) (body : List Statement) (m : ProgramMachine) :
    JobId × ProgramMachine :=
  let (job, m) := m.child parent .task
  (job, m.spawn ⟨.entry job, [.rest job body, .close job]⟩)

/-- Goes on with `k` after a wait; an interruption leaves no mark. -/
def afterWait (frames : List ProgramFrame) (k : ProgramMachine → ProgramReached) :
    WaitStart × ProgramMachine → ProgramReached :=
  Reached.afterWait (fun _ m => m) frames k

/-- Prints the result of a deferred computation that has settled, or gives its exception. -/
def printResult (statement : StatementId) (job : JobId) (result : String)
    (m : ProgramMachine) : ProgramReached :=
  let outcome := (m.job? job).bind (·.outcome)
  let m := record statement (.awaited outcome) m
  match (outcome.getD .cancelled).completion with
  | .ok () => .done (print statement result m)
  | .error kind => (.ended (.error kind), m)

def performAction (ticket : Ticket) (job : JobId) (statement : StatementId) (action : Action)
    (m : ProgramMachine) : ProgramReached :=
  match action with
  | .delay time => afterWait [] .done (m.beginDelay ticket job time)
  | .print text => .done (print statement text m)
  | .throwException kind => (.ended (.error kind), m)
  | .job var =>
    let (signal, m) := m.newSignal
    .done (bind statement var (.bare signal) m)
  | .join var =>
    let (handle, m) := refer statement var m
    match handle.bind (signal? · m) with
    | none => .done m
    | some signal => afterWait [] .done (m.beginJoin ticket job signal)
  | .cancel var =>
    let (handle, m) := refer statement var m
    match handle with
    | none => .done m
    | some (.task target) | some (.deferred target _) => .done (m.cancel target)
    | some (.bare signal) => .done (m.fire signal)
  | .completeJob var =>
    let (handle, m) := refer statement var m
    match handle with
    | some (.bare signal) => .done (m.fire signal)
    | _ => .done m
  | .printAwait var text =>
    let (handle, m) := refer statement var m
    match handle with
    | some (.deferred target result) =>
      match (m.job? target).map (·.completion) with
      | none => .done m
      | some signal =>
        afterWait [.awaited statement target result] (printResult statement target result)
          (m.beginAwait ticket job signal)
    | _ => .done (print statement text m)

/-- Ends a job's own code. The code around it gets the job's outcome. -/
def close (ticket : Ticket) (job : JobId) : Completion → ProgramMachine → ProgramReached :=
  Reached.afterClose ticket job (.settle job) fun outcome m => (.ended outcome.completion, m)

def catchException (statement : StatementId) (kind : ExceptionKind) (result : Completion)
    (m : ProgramMachine) : ProgramReached :=
  match result with
  | .ok () => .done m
  | .error thrown =>
    if kind.catches thrown then .done (print statement handlerText m)
    else (.ended (.error thrown), m)

mutual
/-- Runs one statement in a job, as far as it goes. -/
def perform (ticket : Ticket) (job : JobId) :
    Statement → ProgramMachine → ProgramReached
  | .leaf id action, m => performAction ticket job id action m
  | .block id head body, m =>
    match head with
    | .launch =>
      let (_, m) := launch job body m
      .done m
    | .scopeLaunch =>
      let (_, m) := launch m.env.background body m
      .done m
    | .launchJob var =>
      let (target, m) := launch job body m
      .done (bind id var (.task target) m)
    | .async var result =>
      let (target, m) := launch job body m
      .done (bind id var (.deferred target result) m)
    | .coroutineScope =>
      let (scope, m) := m.child job .scope
      Reached.andThen (.close scope) (close ticket scope) (performBody ticket scope body m)
    | .supervisorScope =>
      let (scope, m) := m.child job .supervisor
      Reached.andThen (.close scope) (close ticket scope) (performBody ticket scope body m)
    | .tryCatch kind =>
      Reached.andThen (.catching id kind) (catchException id kind) (performBody ticket job body m)
def performBody (ticket : Ticket) (job : JobId) :
    List Statement → ProgramMachine → ProgramReached
  | [], m => .done m
  | s :: rest, m =>
    match perform ticket job s (record s.id .began m) with
    | (.ended (.ok ()), m) => performBody ticket job rest (record s.id .ended m)
    | (.ended (.error kind), m) => (.ended (.error kind), m)
    | (.suspended on frames, m) => (.suspended on (frames ++ [.leave s.id, .rest job rest]), m)
end

/-- Ends the program: what runs in the background is cancelled. The outer job is let go of at this
point, but keeps its holder here and so stays in the tree of jobs. Nothing is printed after the end,
so no evaluation can tell. -/
def endProgram (result : Completion) (m : ProgramMachine) : ProgramMachine :=
  (m.cancel m.env.background).updateEnv fun env =>
    { env with ending := some (result, m.now) }

def resume (ticket : Ticket) (frame : ProgramFrame) (result : Completion)
    (m : ProgramMachine) : ProgramReached :=
  match frame with
  | .rest job body =>
    match result with
    | .ok () => performBody ticket job body m
    | .error kind => (.ended (.error kind), m)
  | .leave statement =>
    match result with
    | .ok () => .done (record statement .ended m)
    | .error kind => (.ended (.error kind), m)
  | .catching statement kind => catchException statement kind result m
  | .close job => close ticket job result m
  | .settle job =>
    let (outcome, m) := m.settle job
    (.ended outcome.completion, m)
  | .awaited statement job text =>
    match result with
    | .ok () => printResult statement job text m
    | .error kind => (.ended (.error kind), m)
  | .program => (.ended result, endProgram result m)

end Interpreter

end RacePuzzle
