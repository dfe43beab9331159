import RacePuzzle.Proofs.Machine.Outline
import RacePuzzle.Proofs.Time.Pace

/-! Machines at another pace. No operation looks at the times of a timetable, except where a wait gets
its deadline; so machines that differ in nothing but the pace of their timetables go on like this whatever
happens to both of them. -/
namespace RacePuzzle.Machine

variable {ε τ : Type} {k : Nat} {m m' : Machine ε τ}

/-- The machines are the same but for the pace of the second timetable. -/
inductive Paced (k : Nat) (m : Machine ε τ) : Machine ε τ → Prop
  | intro {timetable : Timetable} : m.timetable.Paced k timetable →
      Paced k m { m with timetable := timetable }

namespace Paced

theorem timetable (h : m.Paced k m') : m.timetable.Paced k m'.timetable := by
  obtain ⟨htimetable⟩ := h
  exact htimetable

theorem signals (h : m.Paced k m') : m'.signals = m.signals := by
  obtain ⟨-⟩ := h
  rfl

theorem jobs (h : m.Paced k m') : m'.jobs = m.jobs := by
  obtain ⟨-⟩ := h
  rfl

theorem dispatcher (h : m.Paced k m') : m'.dispatcher = m.dispatcher := by
  obtain ⟨-⟩ := h
  rfl

theorem env (h : m.Paced k m') : m'.env = m.env := by
  obtain ⟨-⟩ := h
  rfl

theorem now (h : m.Paced k m') : m'.now = k * m.now := h.timetable.clock.now

theorem job? (h : m.Paced k m') (job : JobId) : m'.job? job = m.job? job :=
  congrArg (·[job]?) h.jobs

theorem isCancelled (h : m.Paced k m') (job : JobId) : m'.isCancelled job = m.isCancelled job :=
  congrArg (Option.any _) (h.job? job)

theorem hasFired (h : m.Paced k m') (signal : SignalId) : m'.hasFired signal = m.hasFired signal :=
  congrArg (fun signals => (signals[signal]?).any _) h.signals

theorem withEnv (h : m.Paced k m') (env : ε) : Paced k { m with env := env } { m' with env := env } := by
  obtain ⟨h⟩ := h
  exact .intro h

theorem withDispatcher (h : m.Paced k m') (d : Dispatcher τ) :
    Paced k { m with dispatcher := d } { m' with dispatcher := d } := by
  obtain ⟨h⟩ := h
  exact .intro h

theorem withTimetable (h : m.Paced k m') {t t' : Timetable} (ht : t.Paced k t') :
    Paced k { m with timetable := t } { m' with timetable := t' } := by
  obtain ⟨-⟩ := h
  exact .intro ht

theorem withSignals (h : m.Paced k m') (f : Array Signal → Array Signal) :
    Paced k { m with signals := f m.signals } { m' with signals := f m'.signals } := by
  obtain ⟨h⟩ := h
  exact .intro h

theorem withJobs (h : m.Paced k m') (jobs : Array Job) :
    Paced k { m with jobs := jobs } { m' with jobs := jobs } := by
  obtain ⟨h⟩ := h
  exact .intro h

theorem wake (h : m.Paced k m') (ticket : Ticket) : (m.wake ticket).Paced k (m'.wake ticket) := by
  obtain ⟨h⟩ := h
  exact .intro h

theorem wakeAll (h : m.Paced k m') (tickets : List Ticket) :
    (m.wakeAll tickets).Paced k (m'.wakeAll tickets) := by
  obtain ⟨h⟩ := h
  exact .intro h

theorem spawn (h : m.Paced k m') (task : τ) : (m.spawn task).Paced k (m'.spawn task) := by
  obtain ⟨h⟩ := h
  exact .intro h

theorem updateJob (h : m.Paced k m') (job : JobId) (f : Job → Job) :
    (m.updateJob job f).Paced k (m'.updateJob job f) := by
  obtain ⟨h⟩ := h
  exact .intro h

theorem newSignal (h : m.Paced k m') :
    m'.newSignal.1 = m.newSignal.1 ∧ m.newSignal.2.Paced k m'.newSignal.2 := by
  obtain ⟨h⟩ := h
  exact ⟨rfl, .intro h⟩

theorem child (h : m.Paced k m') (parent : JobId) (role : JobRole) :
    (m'.child parent role).1 = (m.child parent role).1 ∧
      (m.child parent role).2.Paced k (m'.child parent role).2 := by
  obtain ⟨h⟩ := h
  exact ⟨rfl, .intro h⟩

theorem fire (h : m.Paced k m') (signal : SignalId) : (m.fire signal).Paced k (m'.fire signal) := by
  obtain ⟨h⟩ := h
  unfold Machine.fire
  dsimp only
  split
  · next waiters _ =>
    obtain ⟨hsleepers, hresolved⟩ := h.resolveAll .done waiters
    rw [hsleepers]
    exact .intro hresolved
  · exact .intro h

theorem interrupt (h : m.Paced k m') (wait : Nat × OpenWait) :
    (m.interrupt wait).Paced k (m'.interrupt wait) := by
  obtain ⟨h⟩ := h
  obtain ⟨waiter, kind⟩ := wait
  cases kind with
  | timer =>
    obtain ⟨hsleeper, hcancelled⟩ := h.cancelTimer waiter
    unfold Machine.interrupt
    dsimp only
    rw [hsleeper]
    exact .intro hcancelled
  | signal id =>
    obtain ⟨hsleeper, hresolved⟩ := h.resolve id .cancelled
    unfold Machine.interrupt
    dsimp only
    rw [hsleeper]
    exact .intro hresolved

theorem interruptAll (h : m.Paced k m') (waits : List (Nat × OpenWait)) :
    (m.interruptAll waits).Paced k (m'.interruptAll waits) := by
  induction waits generalizing m m' with
  | nil => exact h
  | cons wait rest ih => exact ih (h.interrupt wait)

theorem cancelOne (h : m.Paced k m') (job : JobId) (j : Job) :
    (m.cancelOne job j).Paced k (m'.cancelOne job j) := by
  unfold Machine.cancelOne
  rw [h.jobs]
  exact (h.withJobs _).interruptAll j.pending

theorem cancelAll (h : m.Paced k m') (jobs : List JobId) :
    (m.cancelAll jobs).Paced k (m'.cancelAll jobs) := by
  fun_induction Machine.cancelAll m jobs generalizing m' with
  | case1 m =>
    rw [Machine.cancelAll]
    exact h
  | case2 m job rest hj ih =>
    rw [cancelAll_cons, h.jobs, hj]
    exact ih h
  | case3 m job rest j hj hc hlt ih =>
    rw [cancelAll_cons, h.jobs, hj]
    dsimp only
    rw [if_pos hc]
    exact ih (h.cancelOne job j)
  | case4 m job rest j hj hc ih =>
    rw [cancelAll_cons, h.jobs, hj]
    dsimp only
    rw [if_neg hc]
    exact ih h

theorem cancel (h : m.Paced k m') (job : JobId) : (m.cancel job).Paced k (m'.cancel job) :=
  h.cancelAll [job]

theorem listener? (h : m.Paced k m') (j : Job) : m'.listener? j = m.listener? j := by
  obtain ⟨-⟩ := h
  rfl

theorem recordFailure (h : m.Paced k m') (job : JobId) (j : Job) (kind : ExceptionKind) :
    (m.recordFailure job j kind).Paced k (m'.recordFailure job j kind) := by
  obtain ⟨h⟩ := h
  exact .intro h

theorem fail (h : m.Paced k m') (job : JobId) (kind : ExceptionKind) :
    (m.fail job kind).Paced k (m'.fail job kind) := by
  have hrecord {m m' : Machine ε τ} (h : m.Paced k m') (job : JobId) (j : Job) :
      ((m.recordFailure job j kind).cancel job).Paced k ((m'.recordFailure job j kind).cancel job) :=
    (h.recordFailure job j kind).cancel job
  fun_induction Machine.fail m job kind generalizing m' with
  | case1 m job hj =>
    rw [fail_eq, h.jobs, hj]
    exact h
  | case2 m job j hj hf _ _ _ =>
    rename_i hc
    rw [fail_eq, h.jobs, hj]
    dsimp only
    rw [if_pos hf, if_pos hc]
    exact hrecord h job j
  | case3 m job j hj hf _ _ _ hc =>
    rename_i hnone
    rw [fail_eq, h.jobs, hj]
    dsimp only
    rw [if_pos hf, if_neg hc, h.listener?, hnone]
    exact hrecord h job j
  | case4 m job j hj hf _ _ _ hc parent hparent =>
    rename_i ih
    rw [fail_eq m', h.jobs, hj]
    dsimp only
    rw [if_pos hf, if_neg hc, h.listener?, hparent]
    exact ih (hrecord h job j)
  | case5 m job j hj hf =>
    rw [fail_eq, h.jobs, hj]
    dsimp only
    rw [if_neg hf]
    exact h.cancel job

theorem conclude (h : m.Paced k m') (job : JobId) (result : Completion) :
    (m.conclude job result).Paced k (m'.conclude job result) := by
  cases result with
  | ok => exact h
  | error kind =>
    cases kind with
    | cancellation => exact h.cancel job
    | _ => exact h.fail job _

theorem awaitChildren (h : m.Paced k m') (ticket : Ticket) (job : JobId) :
    (m'.awaitChildren ticket job).1 = (m.awaitChildren ticket job).1 ∧
      (m.awaitChildren ticket job).2.Paced k (m'.awaitChildren ticket job).2 := by
  obtain ⟨h⟩ := h
  exact ⟨rfl, .intro h⟩

theorem unlink (h : m.Paced k m') (parent child : JobId) :
    (m.unlink parent child).Paced k (m'.unlink parent child) := by
  have hheld : m'.isHeld = m.isHeld := by
    obtain ⟨-⟩ := h
    rfl
  unfold Machine.unlink
  rw [h.job?, hheld, h.jobs]
  split
  · exact h
  · dsimp only
    split
    · exact (h.withJobs _).wakeAll _
    · exact h.withJobs _

theorem passOnFailure (h : m.Paced k m') (j : Job) : (m.passOnFailure j).Paced k (m'.passOnFailure j) := by
  unfold Machine.passOnFailure
  rw [h.listener?]
  split
  · split
    · exact h
    · exact h.fail _ _
  · exact h

theorem settle (h : m.Paced k m') (job : JobId) :
    (m'.settle job).1 = (m.settle job).1 ∧ (m.settle job).2.Paced k (m'.settle job).2 := by
  cases hj : m.job? job with
  | none =>
    rw [Machine.settle, Machine.settle, h.job?, hj]
    exact ⟨rfl, h⟩
  | some j =>
    rw [settle_eq hj, settle_eq ((h.job? job).trans hj)]
    refine ⟨rfl, Paced.updateJob ?_ job _⟩
    have hfired (f : Job → Job) := ((h.updateJob job f).passOnFailure j).fire j.completion
    cases j.parent with
    | none => exact hfired _
    | some parent => exact (hfired _).unlink parent job

theorem close (h : m.Paced k m') (ticket : Ticket) (job : JobId) (result : Completion) :
    (m'.close ticket job result).1 = (m.close ticket job result).1 ∧
      (m.close ticket job result).2.Paced k (m'.close ticket job result).2 := by
  obtain ⟨hidle, hwaited⟩ := (h.conclude job result).awaitChildren ticket job
  unfold Machine.close
  dsimp only
  rw [hidle]
  split
  · obtain ⟨houtcome, hsettled⟩ := hwaited.settle job
    exact ⟨congrArg some houtcome, hsettled⟩
  · exact ⟨rfl, hwaited⟩

theorem beginWait (h : m.Paced k m') (ticket : Ticket) (job : JobId) (pending : WaitId → OpenWait)
    {register register' : Machine ε τ → Nat → WaitId → Machine ε τ}
    (hregister : ∀ {m m' : Machine ε τ} waiter wait, m.Paced k m' →
      (register m waiter wait).Paced k (register' m' waiter wait)) :
    (m'.beginWait ticket job pending register').1 = (m.beginWait ticket job pending register).1 ∧
      (m.beginWait ticket job pending register).2.Paced k
        (m'.beginWait ticket job pending register').2 := by
  obtain ⟨h⟩ := h
  obtain ⟨hwaiter, hallocated⟩ := h.allocate
  obtain ⟨hwait, hbegun⟩ := hallocated.newWait (some ticket)
  unfold Machine.beginWait
  dsimp only
  rw [hwaiter, hwait]
  exact ⟨rfl, hregister _ _ (.intro hbegun)⟩

/-- A delay begins alike where its deadline is at the pace of the second machine. -/
theorem beginDelay (h : m.Paced k m') (ticket : Ticket) (job : JobId) {duration : Nat}
    (hdeadline : min (k * m.now + k * duration) maxTime = k * min (m.now + duration) maxTime) :
    (m'.beginDelay ticket job (k * duration)).1 = (m.beginDelay ticket job duration).1 ∧
      (m.beginDelay ticket job duration).2.Paced k (m'.beginDelay ticket job (k * duration)).2 := by
  unfold Machine.beginDelay
  rw [h.isCancelled, h.now, hdeadline]
  split
  · exact ⟨rfl, h.wake ticket⟩
  · obtain ⟨hon, hbegun⟩ := h.beginWait ticket job (fun _ => .timer)
      fun {m m'} waiter wait (h : m.Paced k m') =>
        (h.withTimetable (h.timetable.addTimer waiter _ waiter wait))
    exact ⟨congrArg WaitStart.suspended hon, hbegun⟩

theorem beginJoin (h : m.Paced k m') (ticket : Ticket) (job : JobId) (signal : SignalId) :
    (m'.beginJoin ticket job signal).1 = (m.beginJoin ticket job signal).1 ∧
      (m.beginJoin ticket job signal).2.Paced k (m'.beginJoin ticket job signal).2 := by
  unfold Machine.beginJoin
  rw [h.isCancelled, h.hasFired]
  split
  · exact ⟨rfl, h⟩
  · split
    · exact ⟨rfl, h⟩
    · obtain ⟨hon, hbegun⟩ := h.beginWait ticket job .signal
        fun {m m'} _ wait (h : m.Paced k m') => h.withSignals fun signals =>
          signals.modify signal fun s => { s with waiters := s.waiters ++ [wait] }
      exact ⟨congrArg WaitStart.suspended hon, hbegun⟩

theorem beginAwait (h : m.Paced k m') (ticket : Ticket) (job : JobId) (signal : SignalId) :
    (m'.beginAwait ticket job signal).1 = (m.beginAwait ticket job signal).1 ∧
      (m.beginAwait ticket job signal).2.Paced k (m'.beginAwait ticket job signal).2 := by
  unfold Machine.beginAwait
  rw [h.hasFired]
  split
  · exact ⟨rfl, h⟩
  · exact h.beginJoin ticket job signal

theorem resumption (h : m.Paced k m') (ticket : Ticket) (on : Suspension) :
    (m'.resumption ticket on).1 = (m.resumption ticket on).1 ∧
      (m.resumption ticket on).2.Paced k (m'.resumption ticket on).2 := by
  cases on with
  | entry job =>
    unfold Machine.resumption
    dsimp only
    rw [h.isCancelled]
    exact ⟨rfl, h⟩
  | wait job waiter wait =>
    unfold Machine.resumption
    dsimp only
    rw [h.timetable.waits, h.isCancelled]
    split
    · exact ⟨rfl, h⟩
    · exact ⟨rfl, h.updateJob ..⟩
    · exact ⟨rfl, h.withTimetable (h.timetable.setSleeper wait ticket)⟩
  | children job =>
    obtain ⟨hidle, hwaited⟩ := h.awaitChildren ticket job
    unfold Machine.resumption
    dsimp only
    rw [hidle]
    exact ⟨rfl, hwaited⟩
  | turn => exact ⟨rfl, h⟩

theorem advance (h : m.Paced k m') : m.advance.2.Paced k m'.advance.2 := by
  obtain ⟨h⟩ := h
  obtain ⟨-, hsleepers, hadvanced⟩ := h.advance
  unfold Machine.advance
  dsimp only
  rw [hsleepers]
  exact .intro hadvanced

end Paced

end RacePuzzle.Machine
