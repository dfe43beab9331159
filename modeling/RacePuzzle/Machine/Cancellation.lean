import RacePuzzle.Machine.Basic

/-! Cancellation and failure. Cancellation runs down the tree of jobs and interrupts every
suspended wait on its way; the failure of a task runs up to the nearest job that absorbs
failures. -/
namespace RacePuzzle.Machine

variable {ε τ : Type}

def interrupt (m : Machine ε τ) (wait : Nat × OpenWait) : Machine ε τ :=
  let (sleeper, timetable) := match wait.2 with
    | .timer => m.timetable.cancelTimer wait.1
    | .signal id => m.timetable.resolve id .cancelled
  { m with timetable := timetable }.wakeAll sleeper.toList

def interruptAll (m : Machine ε τ) (waits : List (Nat × OpenWait)) : Machine ε τ :=
  waits.foldl interrupt m

/-- Marks one job as cancelled and interrupts its waits. -/
def cancelOne (m : Machine ε τ) (job : JobId) (j : Job) : Machine ε τ :=
  { m with jobs := m.jobs.setIfInBounds job { j with cancelled := true, pending := [] } }
    |>.interruptAll j.pending

def uncancelled (m : Machine ε τ) : Nat := m.jobs.toList.countP (!·.cancelled)

def unfailed (m : Machine ε τ) : Nat := m.jobs.toList.countP (·.failure.isNone)

@[simp] theorem jobs_wakeAll (m : Machine ε τ) (tickets : List Ticket) :
    (m.wakeAll tickets).jobs = m.jobs := rfl

@[simp] theorem jobs_interruptAll (m : Machine ε τ) (waits : List (Nat × OpenWait)) :
    (m.interruptAll waits).jobs = m.jobs := by
  induction waits generalizing m with
  | nil => rfl
  | cons wait rest ih => exact ih (m.interrupt wait)

@[simp] theorem seats_interruptAll (m : Machine ε τ) (waits : List (Nat × OpenWait)) :
    (m.interruptAll waits).dispatcher.seats = m.dispatcher.seats := by
  induction waits generalizing m with
  | nil => rfl
  | cons wait rest ih => exact (ih (m.interrupt wait)).trans (seats_wakeAll ..)

theorem countP_set_lt {l : List Job} {p : Job → Bool} {i : Nat} {j new : Job}
    (h : l[i]? = some j) (hj : p j = true) (hnew : p new = false) :
    (l.set i new).countP p < l.countP p := by
  obtain ⟨hlt, rfl⟩ := List.getElem?_eq_some_iff.1 h
  have hpos : 0 < l.countP p := List.countP_pos_iff.2 ⟨_, List.getElem_mem hlt, hj⟩
  simp only [List.countP_set hlt, hj, hnew, if_true, Bool.false_eq_true, if_false]
  omega

theorem countP_set_eq {l : List Job} {p : Job → Bool} {i : Nat} {j new : Job}
    (h : l[i]? = some j) (hp : p new = p j) : (l.set i new).countP p = l.countP p := by
  obtain ⟨hlt, rfl⟩ := List.getElem?_eq_some_iff.1 h
  rw [List.countP_set hlt, hp]
  split
  · next hj =>
    have hpos : 0 < l.countP p := List.countP_pos_iff.2 ⟨_, List.getElem_mem hlt, hj⟩
    omega
  · rfl

theorem uncancelled_cancelOne_lt {m : Machine ε τ} {job : JobId} {j : Job}
    (h : m.jobs[job]? = some j) (hc : j.cancelled = false) :
    (m.cancelOne job j).uncancelled < m.uncancelled := by
  simp only [uncancelled, cancelOne, jobs_interruptAll, Array.toList_setIfInBounds]
  exact countP_set_lt (j := j) (by simpa using h) (by simp [hc]) rfl

theorem unfailed_cancelOne {m : Machine ε τ} {job : JobId} {j : Job}
    (h : m.jobs[job]? = some j) : (m.cancelOne job j).unfailed = m.unfailed := by
  simp only [unfailed, cancelOne, jobs_interruptAll, Array.toList_setIfInBounds]
  exact countP_set_eq (j := j) (by simpa using h) rfl

/-- Cancels jobs and all below them, each job before its children and these in their order. A job
that nobody holds is left out, and so is what only it leads to. -/
def cancelAll (m : Machine ε τ) (jobs : List JobId) : Machine ε τ :=
  match jobs with
  | [] => m
  | job :: rest =>
    match h : m.jobs[job]? with
    | none => m.cancelAll rest
    | some j =>
      if hc : j.isHeld && !j.cancelled then
        have : (m.cancelOne job j).uncancelled < m.uncancelled :=
          uncancelled_cancelOne_lt h (by simp_all)
        (m.cancelOne job j).cancelAll (j.children ++ rest)
      else m.cancelAll rest
termination_by (m.uncancelled, jobs.length)

def cancel (m : Machine ε τ) (job : JobId) : Machine ε τ := m.cancelAll [job]

theorem unfailed_cancelAll (m : Machine ε τ) (jobs : List JobId) :
    (m.cancelAll jobs).unfailed = m.unfailed := by
  fun_induction cancelAll m jobs with
  | case1 => rfl
  | case2 m job rest h ih => exact ih
  | case3 m job rest j h hc hlt ih => exact ih.trans (unfailed_cancelOne h)
  | case4 m job rest j h hc ih => exact ih

@[simp] theorem seats_cancelAll (m : Machine ε τ) (jobs : List JobId) :
    (m.cancelAll jobs).dispatcher.seats = m.dispatcher.seats := by
  fun_induction cancelAll m jobs with
  | case1 => rfl
  | case2 m job rest h ih => exact ih
  | case3 m job rest j h hc hlt ih => exact ih.trans (seats_interruptAll ..)
  | case4 m job rest j h hc ih => exact ih

@[simp] theorem seats_cancel (m : Machine ε τ) (job : JobId) :
    (m.cancel job).dispatcher.seats = m.dispatcher.seats := seats_cancelAll ..

/-- Who hears of the job's failure: only a task reports, and only to a parent that does not absorb
failures. -/
def listener? (m : Machine ε τ) (j : Job) : Option JobId :=
  match j.kind, j.parent with
  | .task, some parent =>
    if (m.job? parent).any (·.kind.absorbsFailures) then none else some parent
  | _, _ => none

/-- Records the first failure of a job. A job that is being cancelled already keeps it to itself
until it settles. -/
def recordFailure (m : Machine ε τ) (job : JobId) (j : Job) (kind : ExceptionKind) :
    Machine ε τ :=
  let j := { j with failure := some kind, failureReported := !j.cancelled }
  { m with jobs := m.jobs.setIfInBounds job j }

theorem unfailed_recordFailure_lt {m : Machine ε τ} {job : JobId} {j : Job}
    {kind : ExceptionKind} (h : m.jobs[job]? = some j) (hf : j.failure.isNone) :
    (m.recordFailure job j kind).unfailed < m.unfailed := by
  simp only [unfailed, recordFailure, Array.toList_setIfInBounds]
  exact countP_set_lt (j := j) (by simpa using h) hf rfl

/-- Fails a job: records the failure, cancels the job and lets the listener fail in turn. Nothing
happens to a job that nobody holds. -/
def fail (m : Machine ε τ) (job : JobId) (kind : ExceptionKind) : Machine ε τ :=
  match h : m.jobs[job]? with
  | none => m
  | some j =>
    if hf : j.isHeld && j.failure.isNone then
      have hnone : j.failure.isNone := by
        rw [Bool.and_eq_true] at hf
        exact hf.2
      have : ((m.recordFailure job j kind).cancel job).unfailed < m.unfailed :=
        Nat.lt_of_le_of_lt (Nat.le_of_eq (unfailed_cancelAll ..))
          (unfailed_recordFailure_lt h hnone)
      let failed := (m.recordFailure job j kind).cancel job
      if j.cancelled then failed
      else
        match m.listener? j with
        | none => failed
        | some parent => failed.fail parent kind
    else m.cancel job
termination_by m.unfailed

@[simp] theorem seats_fail (m : Machine ε τ) (job : JobId) (kind : ExceptionKind) :
    (m.fail job kind).dispatcher.seats = m.dispatcher.seats := by
  fun_induction fail m job kind with
  | case1 => rfl
  | case2 => exact seats_cancel ..
  | case3 => exact seats_cancel ..
  | case4 _ _ _ _ _ _ _ _ _ _ _ ih => exact ih.trans (seats_cancel ..)
  | case5 => exact seats_cancel ..

end RacePuzzle.Machine
