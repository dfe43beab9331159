import RacePuzzle.Machine.Cancellation

/-! The end of a job. When its own code has ended, the job waits until its children have settled;
then it settles itself, fires its completion and leaves its parent. -/
namespace RacePuzzle.Machine

variable {ε τ : Type}

def conclude (m : Machine ε τ) (job : JobId) : Completion → Machine ε τ
  | .ok () => m
  | .error .cancellation => m.cancel job
  | .error kind => m.fail job kind

/-- Whether every child of the job has settled; those that nobody holds do not count. If not,
`ticket` is woken when they have. -/
def awaitChildren (m : Machine ε τ) (ticket : Ticket) (job : JobId) : Bool × Machine ε τ :=
  let children := ((m.job? job).elim [] (·.children)).filter m.isHeld
  let sleeper := if children.isEmpty then none else some ticket
  (children.isEmpty, m.updateJob job ({ · with children := children, idleSleeper := sleeper }))

/-- Takes a settled child off its parent, and with it those that nobody holds. Who waits for the
last one is woken. -/
def unlink (m : Machine ε τ) (parent child : JobId) : Machine ε τ :=
  match (m.job? parent).filter (·.isHeld) with
  | none => m
  | some p =>
    let children := p.children.filter fun c => c != child && m.isHeld c
    if children.isEmpty then
      { m with jobs := m.jobs.setIfInBounds parent { p with children := [], idleSleeper := none } }
        |>.wakeAll p.idleSleeper.toList
    else { m with jobs := m.jobs.setIfInBounds parent { p with children := children } }

/-- Tells the listener of a failure that it has not heard of. -/
def passOnFailure (m : Machine ε τ) (j : Job) : Machine ε τ :=
  match j.failure, m.listener? j with
  | some kind, some parent => if j.failureReported then m else m.fail parent kind
  | _, _ => m

def settle (m : Machine ε τ) (job : JobId) : Outcome × Machine ε τ :=
  match m.job? job with
  | none => (.cancelled, m)
  | some j =>
    let outcome := j.finalOutcome
    let reported := j.failureReported || j.failure.isSome
    let m := m.updateJob job ({ · with outcome := some outcome, failureReported := reported })
    let m := (m.passOnFailure j).fire j.completion
    let m := j.parent.elim m (m.unlink · job)
    (outcome, m.updateJob job ({ · with parent := none }))

/-- Ends a job's own code. The job settles at once if its children have; otherwise `ticket` is
woken when they have, and no outcome is given yet. -/
def close (m : Machine ε τ) (ticket : Ticket) (job : JobId) (result : Completion) :
    Option Outcome × Machine ε τ :=
  let (idle, m) := (m.conclude job result).awaitChildren ticket job
  if idle then
    let (outcome, m) := m.settle job
    (some outcome, m)
  else (none, m)

@[simp] theorem seats_conclude (m : Machine ε τ) (job : JobId) (result : Completion) :
    (m.conclude job result).dispatcher.seats = m.dispatcher.seats := by
  unfold conclude
  split <;> simp

@[simp] theorem seats_awaitChildren (m : Machine ε τ) (ticket : Ticket) (job : JobId) :
    (m.awaitChildren ticket job).2.dispatcher.seats = m.dispatcher.seats := rfl

@[simp] theorem dispatcher_awaitChildren (m : Machine ε τ) (ticket : Ticket) (job : JobId) :
    (m.awaitChildren ticket job).2.dispatcher = m.dispatcher := rfl

@[simp] theorem seats_unlink (m : Machine ε τ) (parent child : JobId) :
    (m.unlink parent child).dispatcher.seats = m.dispatcher.seats := by
  unfold unlink
  split
  · rfl
  · dsimp only
    split <;> simp

@[simp] theorem seats_passOnFailure (m : Machine ε τ) (j : Job) :
    (m.passOnFailure j).dispatcher.seats = m.dispatcher.seats := by
  unfold passOnFailure
  split
  · split <;> simp
  · rfl

@[simp] theorem seats_settle (m : Machine ε τ) (job : JobId) :
    (m.settle job).2.dispatcher.seats = m.dispatcher.seats := by
  unfold settle
  split
  · rfl
  · next j _ => cases j.parent <;> simp

@[simp] theorem seats_close (m : Machine ε τ) (ticket : Ticket) (job : JobId)
    (result : Completion) :
    (m.close ticket job result).2.dispatcher.seats = m.dispatcher.seats := by
  unfold close
  dsimp only
  split <;> simp

end RacePuzzle.Machine
