import RacePuzzle.Machine.Dispatcher
import RacePuzzle.Machine.Job

/-! The machine on which simulated programs run: a timetable, signals, jobs, and the tasks that
wait for them. `ε` is what the tasks share beside these, `τ` is the type of a task. -/
namespace RacePuzzle

structure Machine (ε τ : Type) where
  timetable : Timetable
  signals : Array Signal
  jobs : Array Job
  dispatcher : Dispatcher τ
  env : ε

namespace Machine

variable {ε τ : Type}

def start (env : ε) : Machine ε τ := ⟨.start, #[], #[], .empty, env⟩

def now (m : Machine ε τ) : Nat := m.timetable.now

def job? (m : Machine ε τ) (job : JobId) : Option Job := m.jobs[job]?

/-- A job that does not exist is not cancelled. -/
def isCancelled (m : Machine ε τ) (job : JobId) : Bool :=
  (m.job? job).any (·.cancelled)

def isHeld (m : Machine ε τ) (job : JobId) : Bool :=
  (m.job? job).any (·.isHeld)

def hasFired (m : Machine ε τ) (signal : SignalId) : Bool :=
  (m.signals[signal]?).any (·.fired)

def updateJob (m : Machine ε τ) (job : JobId) (f : Job → Job) : Machine ε τ :=
  { m with jobs := m.jobs.modify job f }

def updateEnv (m : Machine ε τ) (f : ε → ε) : Machine ε τ :=
  { m with env := f m.env }

def wake (m : Machine ε τ) (ticket : Ticket) : Machine ε τ :=
  { m with dispatcher := m.dispatcher.wake ticket }

def wakeAll (m : Machine ε τ) (tickets : List Ticket) : Machine ε τ :=
  { m with dispatcher := m.dispatcher.wakeAll tickets }

def spawn (m : Machine ε τ) (task : τ) : Machine ε τ :=
  { m with dispatcher := m.dispatcher.spawn task }

def newSignal (m : Machine ε τ) : SignalId × Machine ε τ :=
  (m.signals.size, { m with signals := m.signals.push .unfired })

/-- Fires a signal and wakes who waits for it. A fired signal stays as it is. -/
def fire (m : Machine ε τ) (signal : SignalId) : Machine ε τ :=
  match m.signals[signal]? with
  | some ⟨false, waiters⟩ =>
    let (sleepers, timetable) := m.timetable.resolveAll .done waiters
    { m with
      signals := m.signals.setIfInBounds signal ⟨true, []⟩
      timetable := timetable }.wakeAll sleepers
  | _ => m

/-- Moves the clock on to the earliest deadline and wakes who slept until then. Gives the waiters
that were due. -/
def advance (m : Machine ε τ) : List Nat × Machine ε τ :=
  let (waiters, sleepers, timetable) := m.timetable.advance
  (waiters, { m with timetable := timetable }.wakeAll sleepers)

/-- A new job, held by its maker. It counts as cancelled from the start if its parent is. -/
def newJob (m : Machine ε τ) (kind : JobRole) (parent : Option JobId) :
    JobId × Machine ε τ :=
  let (completion, m) := m.newSignal
  let job := m.jobs.size
  let cancelled := parent.any m.isCancelled
  (job, { m with
    jobs := m.jobs.push
      ⟨kind, 1, cancelled, none, false, none, [], [], parent, none, completion⟩ })

def root (m : Machine ε τ) (kind : JobRole) : JobId × Machine ε τ :=
  m.newJob kind none

def child (m : Machine ε τ) (parent : JobId) (kind : JobRole) : JobId × Machine ε τ :=
  let (job, m) := m.newJob kind (some parent)
  (job, m.updateJob parent fun p => { p with children := p.children ++ [job] })

/-- One more holds the job. A job that nobody held stays as it is. -/
def hold (m : Machine ε τ) (job : JobId) : Machine ε τ :=
  m.updateJob job fun j => if j.isHeld then { j with holders := j.holders + 1 } else j

def release (m : Machine ε τ) (job : JobId) : Machine ε τ :=
  m.updateJob job fun j => { j with holders := j.holders - 1 }

def work (w : τ → Nat) (m : Machine ε τ) : Nat := m.dispatcher.work w

@[simp] theorem seats_updateJob (m : Machine ε τ) (job : JobId) (f : Job → Job) :
    (m.updateJob job f).dispatcher.seats = m.dispatcher.seats := rfl

@[simp] theorem seats_updateEnv (m : Machine ε τ) (f : ε → ε) :
    (m.updateEnv f).dispatcher.seats = m.dispatcher.seats := rfl

@[simp] theorem seats_wake (m : Machine ε τ) (ticket : Ticket) :
    (m.wake ticket).dispatcher.seats = m.dispatcher.seats :=
  Dispatcher.seats_wake ..

@[simp] theorem seats_wakeAll (m : Machine ε τ) (tickets : List Ticket) :
    (m.wakeAll tickets).dispatcher.seats = m.dispatcher.seats :=
  Dispatcher.seats_wakeAll ..

@[simp] theorem seats_fire (m : Machine ε τ) (signal : SignalId) :
    (m.fire signal).dispatcher.seats = m.dispatcher.seats := by
  unfold fire
  split <;> simp

@[simp] theorem seats_newJob (m : Machine ε τ) (kind : JobRole) (parent : Option JobId) :
    (m.newJob kind parent).2.dispatcher.seats = m.dispatcher.seats := rfl

@[simp] theorem seats_child (m : Machine ε τ) (parent : JobId) (kind : JobRole) :
    (m.child parent kind).2.dispatcher.seats = m.dispatcher.seats := rfl

@[simp] theorem seats_hold (m : Machine ε τ) (job : JobId) :
    (m.hold job).dispatcher.seats = m.dispatcher.seats := rfl

@[simp] theorem seats_release (m : Machine ε τ) (job : JobId) :
    (m.release job).dispatcher.seats = m.dispatcher.seats := rfl

theorem work_spawn (w : τ → Nat) (m : Machine ε τ) (task : τ) :
    (m.spawn task).work w = m.work w + w task :=
  Dispatcher.work_spawn ..

theorem work_congr (w : τ → Nat) {m m' : Machine ε τ}
    (h : m'.dispatcher.seats = m.dispatcher.seats) : m'.work w = m.work w := by
  simp only [work, Dispatcher.work, h]

end Machine

end RacePuzzle
