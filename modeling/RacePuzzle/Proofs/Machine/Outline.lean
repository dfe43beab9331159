import RacePuzzle.Proofs.Machine.Suspension

/-! The outline of a machine: its clock, its waits, its jobs and its queue, without the numbers of the
signals, the environment and the code of the tasks. Nothing that happens to jobs and waits looks past
the outline, except where a signal is asked for or fires. -/
namespace RacePuzzle

def Job.outline (job : Job) : Job := { job with completion := 0 }

def Dispatcher.outline {τ : Type} (d : Dispatcher τ) : Dispatcher Unit :=
  { d with seats := #[] }

theorem Dispatcher.outline_wake {τ : Type} (d : Dispatcher τ) (ticket : Ticket) :
    (d.wake ticket).outline = d.outline.wake ticket := by
  have hsame : d.outline.tickets = d.tickets := rfl
  cases h : d.tickets[ticket]? with
  | none => simp only [wake, hsame, h]
  | some entry =>
    simp only [wake, hsame, h]
    split <;> rfl

theorem Dispatcher.outline_wakeAll {τ : Type} (d : Dispatcher τ) (tickets : List Ticket) :
    (d.wakeAll tickets).outline = d.outline.wakeAll tickets := by
  induction tickets generalizing d with
  | nil => rfl
  | cons ticket rest ih => exact (ih (d.wake ticket)).trans (by rw [outline_wake]; rfl)

namespace Machine

variable {ε τ : Type}

def outline (m : Machine ε τ) : Machine Unit Unit :=
  ⟨m.timetable, #[], m.jobs.map Job.outline, m.dispatcher.outline, ()⟩

section Reading

variable (m : Machine ε τ)

theorem jobs_outline (job : JobId) : m.outline.jobs[job]? = (m.jobs[job]?).map Job.outline :=
  Array.getElem?_map ..

theorem job?_outline (job : JobId) : m.outline.job? job = (m.job? job).map Job.outline :=
  m.jobs_outline job

@[simp] theorem isCancelled_outline (job : JobId) : m.outline.isCancelled job = m.isCancelled job := by
  rw [isCancelled, job?_outline, Option.any_map]
  rfl

@[simp] theorem isHeld_outline (job : JobId) : m.outline.isHeld job = m.isHeld job := by
  rw [isHeld, job?_outline, Option.any_map]
  rfl

theorem listener?_outline (job : Job) : m.outline.listener? job.outline = m.listener? job := by
  have habsorb (p : JobId) :
      (m.outline.job? p).any (·.kind.absorbsFailures) = (m.job? p).any (·.kind.absorbsFailures) := by
    rw [job?_outline, Option.any_map]
    rfl
  unfold listener?
  simp only [habsorb]
  rfl

end Reading

section Acting

variable (m : Machine ε τ)

@[simp] theorem outline_updateEnv (f : ε → ε) : (m.updateEnv f).outline = m.outline := rfl

@[simp] theorem outline_wake (ticket : Ticket) : (m.wake ticket).outline = m.outline.wake ticket := by
  rw [outline, wake, Dispatcher.outline_wake]
  rfl

@[simp] theorem outline_wakeAll (tickets : List Ticket) :
    (m.wakeAll tickets).outline = m.outline.wakeAll tickets := by
  rw [outline, wakeAll, Dispatcher.outline_wakeAll]
  rfl

theorem outline_set (job : JobId) (new : Job) :
    ({ m with jobs := m.jobs.setIfInBounds job new } : Machine ε τ).outline =
      { m.outline with jobs := m.outline.jobs.setIfInBounds job new.outline } := by
  rw [outline, Array.map_setIfInBounds]
  rfl

theorem outline_updateJob {f : Job → Job} (hf : ∀ job, (f job).outline = f job.outline)
    (job : JobId) : (m.updateJob job f).outline = m.outline.updateJob job f := by
  have hget := m.job?_outline job
  cases hj : m.job? job with
  | none =>
    rw [hj] at hget
    rw [updateJob_of_none hj, updateJob_of_none hget]
  | some j =>
    rw [hj] at hget
    rw [updateJob_eq_set hj, updateJob_eq_set hget, outline_set, hf]

@[simp] theorem outline_interruptAll (waits : List (Nat × OpenWait)) :
    (m.interruptAll waits).outline = m.outline.interruptAll waits := by
  induction waits generalizing m with
  | nil => rfl
  | cons wait rest ih =>
    have hone : (m.interrupt wait).outline = m.outline.interrupt wait := outline_wakeAll ..
    exact (ih (m.interrupt wait)).trans (congrArg (interruptAll · rest) hone)

theorem outline_cancelOne (job : JobId) (j : Job) :
    (m.cancelOne job j).outline = m.outline.cancelOne job j.outline := by
  rw [cancelOne, outline_interruptAll, outline_set]
  rfl

@[simp] theorem outline_cancelAll (jobs : List JobId) :
    (m.cancelAll jobs).outline = m.outline.cancelAll jobs := by
  fun_induction cancelAll m jobs with
  | case1 m => rw [cancelAll]
  | case2 m job rest h ih =>
    rw [ih, cancelAll_cons, jobs_outline, h]
    rfl
  | case3 m job rest j h hc hlt ih =>
    rw [ih, outline_cancelOne, cancelAll_cons, jobs_outline, h]
    exact (if_pos hc).symm
  | case4 m job rest j h hc ih =>
    rw [ih, cancelAll_cons, jobs_outline, h]
    exact (if_neg hc).symm

@[simp] theorem outline_cancel (job : JobId) : (m.cancel job).outline = m.outline.cancel job :=
  m.outline_cancelAll [job]

theorem outline_recordFailure (job : JobId) (j : Job) (kind : ExceptionKind) :
    (m.recordFailure job j kind).outline = m.outline.recordFailure job j.outline kind := by
  rw [recordFailure, outline_set]
  rfl

theorem fail_eq (job : JobId) (kind : ExceptionKind) :
    m.fail job kind =
      match m.jobs[job]? with
      | none => m
      | some j =>
        if j.isHeld && j.failure.isNone then
          if j.cancelled then (m.recordFailure job j kind).cancel job
          else
            match m.listener? j with
            | none => (m.recordFailure job j kind).cancel job
            | some parent => ((m.recordFailure job j kind).cancel job).fail parent kind
        else m.cancel job := by
  rw [fail]
  split <;> rename_i h <;> simp only [h]
  split <;> rfl

@[simp] theorem outline_fail (job : JobId) (kind : ExceptionKind) :
    (m.fail job kind).outline = m.outline.fail job kind := by
  have hrecord (m : Machine ε τ) (job : JobId) (j : Job) :
      ((m.recordFailure job j kind).cancel job).outline =
        (m.outline.recordFailure job j.outline kind).cancel job := by
    rw [outline_cancel, outline_recordFailure]
  fun_induction fail m job kind with
  | case1 m job h =>
    rw [fail_eq, jobs_outline, h]
    rfl
  | case2 m job j h hf _ _ _ hc =>
    rw [hrecord, fail_eq, jobs_outline, h]
    exact ((if_pos hf).trans (if_pos hc)).symm
  | case3 m job j h hf _ _ _ hc hnone =>
    rw [hrecord, fail_eq, jobs_outline, h]
    refine ((if_pos hf).trans ((if_neg hc).trans ?_)).symm
    rw [listener?_outline, hnone]
  | case4 m job j h hf _ _ _ hc parent hparent ih =>
    rw [ih, hrecord, fail_eq m.outline, jobs_outline, h]
    refine ((if_pos hf).trans ((if_neg hc).trans ?_)).symm
    rw [listener?_outline, hparent]
  | case5 m job j h hf =>
    rw [outline_cancel, fail_eq, jobs_outline, h]
    exact (if_neg hf).symm

@[simp] theorem outline_conclude (job : JobId) (result : Completion) :
    (m.conclude job result).outline = m.outline.conclude job result := by
  cases result with
  | ok _ => rfl
  | error kind => cases kind <;> simp [conclude]

theorem children_outline (job : JobId) :
    ((m.outline.job? job).elim [] (·.children)).filter m.outline.isHeld =
      ((m.job? job).elim [] (·.children)).filter m.isHeld := by
  have hheld : m.outline.isHeld = m.isHeld := funext m.isHeld_outline
  rw [job?_outline, hheld]
  cases m.job? job <;> rfl

theorem awaitChildren_outline (ticket : Ticket) (job : JobId) :
    m.outline.awaitChildren ticket job =
      ((m.awaitChildren ticket job).1, (m.awaitChildren ticket job).2.outline) := by
  unfold awaitChildren
  simp only [children_outline]
  refine Prod.ext rfl (outline_updateJob m ?_ job).symm
  exact fun _ => rfl

@[simp] theorem outline_unlink (parent child : JobId) :
    (m.unlink parent child).outline = m.outline.unlink parent child := by
  have hfilter : (m.outline.job? parent).filter (·.isHeld) =
      ((m.job? parent).filter (·.isHeld)).map Job.outline := by
    rw [job?_outline, Option.filter_map]
    rfl
  unfold unlink
  rw [hfilter]
  simp only [isHeld_outline]
  cases (m.job? parent).filter (·.isHeld) with
  | none => rfl
  | some p =>
    have hchildren : p.outline.children = p.children := rfl
    simp only [Option.map_some, hchildren]
    split
    · rw [outline_wakeAll, outline_set]
      rfl
    · exact outline_set ..

theorem outline_passOnFailure (j : Job) :
    (m.passOnFailure j).outline = m.outline.passOnFailure j.outline := by
  have hfailure : j.outline.failure = j.failure := rfl
  have hreported : j.outline.failureReported = j.failureReported := rfl
  unfold passOnFailure
  rw [listener?_outline, hfailure, hreported]
  split
  · split
    · rfl
    · exact outline_fail ..
  · rfl

theorem outline_withWait (ticket : Ticket) (job : JobId) (on : OpenWait) :
    (m.withWait ticket job on).outline = m.outline.withWait ticket job on := by
  refine outline_updateJob { m with timetable := _ } ?_ job
  exact fun _ => rfl

def withTimer (waiter target : Nat) (wait : WaitId) : Machine ε τ :=
  { m with timetable := m.timetable.addTimer waiter target waiter wait }

def withWaiter (signal : SignalId) (wait : WaitId) : Machine ε τ :=
  { m with signals := m.signals.modify signal fun s => { s with waiters := s.waiters ++ [wait] } }

theorem beginDelay_eq {job : JobId} (hc : m.isCancelled job = false) (ticket : Ticket)
    (duration : Nat) : m.beginDelay ticket job duration =
      (.suspended (.wait job m.timetable.clock.nextSeq m.timetable.waits.size),
        (m.withWait ticket job .timer).withTimer m.timetable.clock.nextSeq
          (min (m.now + duration) maxTime) m.timetable.waits.size) := by
  rw [beginDelay, hc]
  rfl

theorem beginSignalWait_eq (ticket : Ticket) (job : JobId) (signal : SignalId) :
    m.beginSignalWait ticket job signal =
      (.wait job m.timetable.clock.nextSeq m.timetable.waits.size,
        (m.withWait ticket job (.signal m.timetable.waits.size)).withWaiter signal
          m.timetable.waits.size) := rfl

theorem beginDelay_outline (ticket : Ticket) (job : JobId) (duration : Nat) :
    m.outline.beginDelay ticket job duration =
      Prod.map id outline (m.beginDelay ticket job duration) := by
  have hsame := m.isCancelled_outline job
  cases hc : m.isCancelled job with
  | true =>
    rw [hc] at hsame
    rw [beginDelay, beginDelay, hc, hsame]
    exact Prod.ext rfl (outline_wake ..).symm
  | false =>
    rw [beginDelay_eq m hc, beginDelay_eq m.outline (hsame.trans hc), ← outline_withWait]
    rfl

/-- The outline has no signals for which it could wait. -/
theorem beginSignalWait_outline (ticket : Ticket) (job : JobId) (signal signal' : SignalId) :
    m.outline.beginSignalWait ticket job signal' =
      Prod.map id outline (m.beginSignalWait ticket job signal) := by
  have hnone (o : Machine ε τ) (wait : WaitId) : o.outline.withWaiter signal' wait = o.outline := by
    have hempty (f : Signal → Signal) : (#[] : Array Signal).modify signal' f = #[] :=
      Array.eq_empty_of_size_eq_zero (by simp)
    exact congrArg (Machine.mk o.timetable · o.outline.jobs o.outline.dispatcher ()) (hempty _)
  rw [beginSignalWait_eq, beginSignalWait_eq, ← outline_withWait, hnone]
  rfl

theorem outline_forget (job : JobId) (waiter : Nat) :
    (m.forget job waiter).outline = m.outline.forget job waiter := by
  refine outline_updateJob m ?_ job
  exact fun _ => rfl

theorem resumption_outline (ticket : Ticket) (on : Suspension) :
    m.outline.resumption ticket on = Prod.map id outline (m.resumption ticket on) := by
  cases on with
  | entry job => simp [resumption]
  | wait job waiter wait =>
    have hwaits : m.outline.timetable.waits = m.timetable.waits := rfl
    unfold resumption
    dsimp only
    rw [isCancelled_outline, hwaits, ← outline_forget]
    rcases m.timetable.waits[wait]? with _ | _ | _ | _ <;> rfl
  | children job =>
    rw [resumption, awaitChildren_outline]
    rfl
  | turn => rfl

theorem advance_outline : m.outline.advance = Prod.map id outline m.advance :=
  Prod.ext rfl (outline_wakeAll { m with timetable := _ } _).symm

theorem child_eq (parent : JobId) (kind : JobRole) :
    m.child parent kind =
      ((m.newJob kind (some parent)).1, (m.newJob kind (some parent)).2.updateJob parent
        fun p => { p with children := p.children ++ [(m.newJob kind (some parent)).1] }) := rfl

/-- The outline does not count signals. -/
theorem outline_child (parent : JobId) (kind : JobRole) :
    (m.child parent kind).2.outline =
      { (m.outline.child parent kind).2 with signals := #[] } := by
  have hnew : (m.newJob kind (some parent)).2.outline =
      { (m.outline.newJob kind (some parent)).2 with signals := #[] } := by
    have hpush : (m.newJob kind (some parent)).2.jobs.map Job.outline =
        m.outline.jobs.push ⟨kind, 1, m.isCancelled parent, none, false, none, [], [], some parent,
          none, 0⟩ := Array.map_push
    rw [← isCancelled_outline] at hpush
    rw [outline, hpush]
    rfl
  have hparent := outline_updateJob (m.newJob kind (some parent)).2
    (f := fun p => { p with children := p.children ++ [(m.newJob kind (some parent)).1] })
    (fun _ => rfl) parent
  have hsize : (m.outline.newJob kind (some parent)).1 = (m.newJob kind (some parent)).1 :=
    Array.size_map
  rw [child_eq, child_eq, hsize]
  exact hparent.trans (by rw [hnew]; rfl)

end Acting

end Machine

end RacePuzzle
