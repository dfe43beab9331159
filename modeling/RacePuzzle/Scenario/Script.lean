import RacePuzzle.Scenario.Step

/-! What the steps of a script do on a machine. -/
namespace RacePuzzle

def Outcome.name : Outcome → String
  | .completed => "Completed"
  | .cancelled => "Cancelled"
  | .failed kind => "Failed:" ++ kind.name

/-- How an interrupted wait is logged. -/
def Interruption.note? : Interruption → Option String
  | .cancelled => some "!cancelled"
  | .contextCancelled => some "!context cancelled"
  | .neverBegun => none

namespace Script

def note (text : String) (m : ScenarioMachine) : ScenarioMachine :=
  m.updateEnv fun env => { env with log := env.log.push ⟨m.now, text⟩ }

def noteInterruption (why : Interruption) (m : ScenarioMachine) : ScenarioMachine :=
  why.note?.elim m (note · m)

def job? (name : String) (m : ScenarioMachine) : Option JobId := m.env.jobs.find? name

def signal? (name : String) (m : ScenarioMachine) : Option SignalId := m.env.signals.find? name

def completion? (name : String) (m : ScenarioMachine) : Option (JobId × SignalId) := do
  let job ← job? name m
  let entry ← m.job? job
  return (job, entry.completion)

/-- Gives a job, which is held for its name, that name. The job that had it is let go. -/
def nameJob (name : String) (job : JobId) (m : ScenarioMachine) : ScenarioMachine :=
  (job? name m).elim id (fun former m => m.release former) <|
    m.updateEnv fun env => { env with jobs := env.jobs.assign name job }

def nameSleeper (name : String) (ticket : Ticket) (m : ScenarioMachine) : ScenarioMachine :=
  m.updateEnv fun env => { env with sleepers := env.sleepers.assign name ticket }

def newChild (parent : JobId) (name : String) (kind : JobRole) (m : ScenarioMachine) :
    JobId × ScenarioMachine :=
  let (job, m) := m.child parent kind
  (job, nameJob name job m)

def newTop (name : String) (kind : JobRole) (m : ScenarioMachine) : ScenarioMachine :=
  let (job, m) := m.root kind
  nameJob name job m

/-- Starts a task with a job of its own that runs a script. -/
def launch (parent : JobId) (name : String) (script : List Step) (m : ScenarioMachine) :
    ScenarioMachine :=
  let (job, m) := newChild parent name .task m
  (m.hold job).spawn ⟨.entry job, [.rest job script, .close job, .release job]⟩

/-- Starts a task that runs a script in an existing job. -/
def spawn (here : JobId) (script : List Step) (m : ScenarioMachine) : ScenarioMachine :=
  (m.hold here).spawn ⟨.turn, [.rest here script, .uncaught, .release here]⟩

def abandon (m : ScenarioMachine) (task : Task ScenarioFrame) : ScenarioMachine :=
  task.frames.foldl (fun m frame => match frame with
    | .release job => m.release job
    | _ => m) m

def shutDown (m : ScenarioMachine) : ScenarioMachine :=
  let tasks := m.dispatcher.seats.toList.filterMap (·.task)
  tasks.foldl abandon { m with dispatcher := m.dispatcher.endAll }

/-- Steps that never suspend. They fail on unknown names; other steps are none of these. `here` is
the job of the script, if the step is in one. -/
def act? (here : Option JobId) (step : Step) (m : ScenarioMachine) : Option ScenarioMachine :=
  match step with
  | .child parent name kind => do
    let parent ← job? parent m
    return (newChild parent name kind m).2
  | .launch parent name body => do
    let parent ← parent.elim here (job? · m)
    return launch parent name body m
  | .signal name =>
    let (signal, m) := m.newSignal
    some (m.updateEnv fun env => { env with signals := env.signals.assign name signal })
  | .fire signal => do return m.fire (← signal? signal m)
  | .cancel job => do return m.cancel (← job? job m)
  | .fail job kind => do return m.fail (← job? job m) kind
  | .wake sleeper twice => do
    let ticket ← m.env.sleepers.find? sleeper
    let woken := m.wake ticket
    return if twice then woken.wake ticket else woken
  | _ => none

/-- A step that cannot be done is logged, and the script goes on. -/
def skip (m : ScenarioMachine) : ScenarioReached := .done (note "?" m)

/-- Goes on with `k` after a wait; an interruption is logged. -/
def afterWait (frames : List ScenarioFrame) (k : ScenarioMachine → ScenarioReached) :
    WaitStart × ScenarioMachine → ScenarioReached :=
  Reached.afterWait noteInterruption frames k

def letGo (job : JobId) (result : Completion) (m : ScenarioMachine) : ScenarioReached :=
  (.ended result, m.release job)

/-- Runs code that holds a job until it ends. -/
def holding (job : JobId) (code : ScenarioMachine → ScenarioReached) (m : ScenarioMachine) :
    ScenarioReached :=
  Reached.andThen (.release job) (letGo job) (code (m.hold job))

def outcomeOf (job : JobId) (m : ScenarioMachine) : ScenarioReached :=
  (.ended (((m.job? job).bind (·.outcome)).elim (.ok ()) Outcome.completion), m)

/-- Ends a job's own code. The code around it gets the job's outcome. -/
def close (ticket : Ticket) (job : JobId) : Completion → ScenarioMachine → ScenarioReached :=
  Reached.afterClose ticket job (.settle job) fun outcome m => (.ended outcome.completion, m)

/-- Ends a job's own code and logs the job's outcome. -/
def closeLogged (ticket : Ticket) (job : JobId) : Completion → ScenarioMachine → ScenarioReached :=
  Reached.afterClose ticket job (.settleLogged job) fun outcome m => .done (note outcome.name m)

def endAttempt (result : Completion) (m : ScenarioMachine) : ScenarioReached :=
  match result with
  | .ok () => .done m
  | .error kind => .done (note ("caught " ++ kind.name) m)

/-- Waits until the children of a job have settled. -/
def idle (ticket : Ticket) (job : JobId) (m : ScenarioMachine) : ScenarioReached :=
  match m.awaitChildren ticket job with
  | (true, m) => .done m
  | (false, m) => (.suspended (.children job) [], m)

/-- Steps without a body that need the running task: the waits and what concerns its sleep. -/
def runWait (ticket : Ticket) (here : JobId) (step : Step) (m : ScenarioMachine) :
    ScenarioReached :=
  match step with
  | .log text => .done (note text m)
  | .throwException kind => (.ended (.error kind), m)
  | .delay duration => afterWait [] .done (m.beginDelay ticket here duration)
  | .wait signal =>
    match signal? signal m with
    | none => skip m
    | some signal => afterWait [] .done (m.beginJoin ticket here signal)
  | .awaitSignal signal =>
    match signal? signal m with
    | none => skip m
    | some signal => afterWait [] .done (m.beginAwait ticket here signal)
  | .join job =>
    match completion? job m with
    | none => skip m
    | some (job, signal) =>
      holding job (fun m => afterWait [] .done (m.beginJoin ticket here signal)) m
  | .awaitJob job =>
    match completion? job m with
    | none => skip m
    | some (job, signal) =>
      holding job
        (fun m => afterWait [.awaited job] (outcomeOf job) (m.beginAwait ticket here signal)) m
  | .idle job =>
    match job? job m with
    | none => skip m
    | some job => holding job (idle ticket job) m
  | .complete job exception =>
    match job? job m with
    | none => skip m
    | some job => holding job (closeLogged ticket job (exception.elim (.ok ()) .error)) m
  | .yield => (.suspended .turn [], m.wake ticket)
  | .park name => (.suspended .turn [], nameSleeper name ticket m)
  | .stash name => .done (nameSleeper name ticket m)
  | step =>
    match act? (some here) step m with
    | some m => .done m
    | none => skip m

mutual
/-- Runs one step in the job `here`, as far as it goes. -/
def runStep (ticket : Ticket) (here : JobId) :
    Step → ScenarioMachine → ScenarioReached
  | .attempt body, m => Reached.andThen .attempt endAttempt (runScript ticket here body m)
  | .scope kind name body, m =>
    let (scope, m) := newChild here name kind m
    holding scope (fun m => Reached.andThen (.close scope) (close ticket scope)
      (runScript ticket scope body m)) m
  | step, m => runWait ticket here step m
def runScript (ticket : Ticket) (here : JobId) :
    List Step → ScenarioMachine → ScenarioReached
  | [], m => .done m
  | step :: rest, m =>
    match runStep ticket here step m with
    | (.ended (.ok ()), m) => runScript ticket here rest m
    | (.ended (.error kind), m) => (.ended (.error kind), m)
    | (.suspended on frames, m) => (.suspended on (frames ++ [.rest here rest]), m)
end

def resume (ticket : Ticket) (frame : ScenarioFrame) (result : Completion)
    (m : ScenarioMachine) : ScenarioReached :=
  match frame with
  | .rest here script =>
    match result with
    | .ok () => runScript ticket here script m
    | .error kind => (.ended (.error kind), m)
  | .attempt => endAttempt result m
  | .close job => close ticket job result m
  | .settle job =>
    let (outcome, m) := m.settle job
    (.ended outcome.completion, m)
  | .settleLogged job =>
    let (outcome, m) := m.settle job
    .done (note outcome.name m)
  | .awaited job =>
    match result with
    | .ok () => outcomeOf job m
    | .error kind => (.ended (.error kind), m)
  | .uncaught =>
    match result with
    | .ok () => .done m
    | .error kind => .done (note ("uncaught " ++ kind.name) m)
  | .release job => letGo job result m

end Script

end RacePuzzle
