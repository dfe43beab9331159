import RacePuzzle.Machine.Settlement

/-! What a task can be suspended on, how it gets there and how it resumes. -/
namespace RacePuzzle

inductive Interruption
  /-- The job was cancelled while the task was suspended. -/
  | cancelled
  /-- The job was cancelled when the wait began. -/
  | contextCancelled
  /-- The job was cancelled before its task first ran. -/
  | neverBegun
  deriving DecidableEq, Repr

/-- What a suspended task needs in order to go on. -/
inductive Suspension
  /-- The task of a new job has not run yet. -/
  | entry (job : JobId)
  /-- A delay, or a wait for a signal, of a job. -/
  | wait (job : JobId) (waiter : Nat) (wait : WaitId)
  /-- The children of a job have to settle. -/
  | children (job : JobId)
  /-- The task gave up its turn and goes on when it is polled again. -/
  | turn
  deriving DecidableEq, Repr

inductive WaitStart
  | through
  | refused (why : Interruption)
  | suspended (on : Suspension)

def Interruption.completion (_ : Interruption) : Completion := .error .cancellation

namespace Machine

variable {ε τ : Type}

/-- The largest time. A deadline past it comes down to it. -/
def maxTime : Nat := UInt64.size - 1

/-- A new wait of a job, resolved by `register`, with the job's cancellation interrupting it. -/
def beginWait (m : Machine ε τ) (ticket : Ticket) (job : JobId)
    (pending : WaitId → OpenWait)
    (register : Machine ε τ → Nat → WaitId → Machine ε τ) : Suspension × Machine ε τ :=
  let (waiter, timetable) := m.timetable.allocate
  let (wait, timetable) := timetable.newWait (some ticket)
  let m := { m with timetable := timetable }.updateJob job fun j =>
    { j with pending := j.pending ++ [(waiter, pending wait)] }
  (.wait job waiter wait, register m waiter wait)

/-- Suspends a task of the job for `duration`. A refused delay wakes the task, so that one that is
suspended by what follows is polled once more. -/
def beginDelay (m : Machine ε τ) (ticket : Ticket) (job : JobId) (duration : Nat) :
    WaitStart × Machine ε τ :=
  if m.isCancelled job then (.refused .contextCancelled, m.wake ticket)
  else
    let target := min (m.now + duration) maxTime
    let (on, m) := m.beginWait ticket job (fun _ => .timer) fun m waiter wait =>
      { m with timetable := m.timetable.addTimer waiter target waiter wait }
    (.suspended on, m)

def beginSignalWait (m : Machine ε τ) (ticket : Ticket) (job : JobId) (signal : SignalId) :
    Suspension × Machine ε τ :=
  m.beginWait ticket job .signal fun m _ wait =>
    { m with signals :=
        m.signals.modify signal fun s => { s with waiters := s.waiters ++ [wait] } }

/-- Waits for a signal. A cancelled job cannot wait, not even for a signal that has fired. -/
def beginJoin (m : Machine ε τ) (ticket : Ticket) (job : JobId) (signal : SignalId) :
    WaitStart × Machine ε τ :=
  if m.isCancelled job then (.refused .contextCancelled, m)
  else if m.hasFired signal then (.through, m)
  else
    let (on, m) := m.beginSignalWait ticket job signal
    (.suspended on, m)

/-- Waits for a signal. One that has fired lets a cancelled job through as well. -/
def beginAwait (m : Machine ε τ) (ticket : Ticket) (job : JobId) (signal : SignalId) :
    WaitStart × Machine ε τ :=
  if m.hasFired signal then (.through, m) else m.beginJoin ticket job signal

def forget (m : Machine ε τ) (job : JobId) (waiter : Nat) : Machine ε τ :=
  m.updateJob job fun j => { j with pending := j.pending.filter (·.1 != waiter) }

/-- How a suspended task goes on when it is polled: not at all yet, or with the result of what it
waited for. A job that was cancelled after its wait was resolved is interrupted all the same. -/
def resumption (m : Machine ε τ) (ticket : Ticket) :
    Suspension → Option (Except Interruption Unit) × Machine ε τ
  | .entry job => (some (if m.isCancelled job then .error .neverBegun else .ok ()), m)
  | .wait job waiter wait =>
    match m.timetable.waits[wait]? with
    | some .cancelled => (some (.error .cancelled), m)
    | some .done =>
      (some (if m.isCancelled job then .error .cancelled else .ok ()), m.forget job waiter)
    | _ => (none, { m with timetable := m.timetable.setSleeper wait ticket })
  | .children job =>
    let (idle, m) := m.awaitChildren ticket job
    (if idle then some (.ok ()) else none, m)
  | .turn => (some (.ok ()), m)

@[simp] theorem dispatcher_resumption (m : Machine ε τ) (ticket : Ticket) (on : Suspension) :
    (m.resumption ticket on).2.dispatcher = m.dispatcher := by
  cases on with
  | entry job => rfl
  | wait job waiter wait =>
    unfold resumption
    dsimp only
    split <;> rfl
  | children job => rfl
  | turn => rfl

@[simp] theorem seats_beginDelay (m : Machine ε τ) (ticket : Ticket) (job : JobId)
    (duration : Nat) :
    (m.beginDelay ticket job duration).2.dispatcher.seats = m.dispatcher.seats := by
  unfold beginDelay
  split
  · exact seats_wake ..
  · rfl

@[simp] theorem seats_beginJoin (m : Machine ε τ) (ticket : Ticket) (job : JobId)
    (signal : SignalId) :
    (m.beginJoin ticket job signal).2.dispatcher.seats = m.dispatcher.seats := by
  unfold beginJoin
  split
  · rfl
  · split <;> rfl

@[simp] theorem seats_beginAwait (m : Machine ε τ) (ticket : Ticket) (job : JobId)
    (signal : SignalId) :
    (m.beginAwait ticket job signal).2.dispatcher.seats = m.dispatcher.seats := by
  unfold beginAwait
  split
  · rfl
  · exact seats_beginJoin ..

end Machine

end RacePuzzle
