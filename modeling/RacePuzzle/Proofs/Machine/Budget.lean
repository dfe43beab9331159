import RacePuzzle.Proofs.Machine.Settling
import RacePuzzle.Proofs.Machine.Dispatcher
import RacePuzzle.Proofs.Time.Timetable
import RacePuzzle.Machine.Suspension

/-! What the operations of the machine cost. Every poll needs an entry in the ready queue, and every
entry comes from a sleeper that is woken, so entries and sleepers together bound the polls to come.
Between two moves of the clock time stands still, and only a delay makes a timer. -/
namespace RacePuzzle

def Wait.hasSleeper : Wait → Bool
  | .pending (some _) => true
  | _ => false

namespace Timetable

def sleepers (t : Timetable) : Nat := t.waits.countP Wait.hasSleeper

def liveTimers (t : Timetable) : Nat := t.clock.timers.live.size

/-- A sleeper that is handed out is one sleeper less. -/
theorem sleepers_resolve_le (t : Timetable) (w : WaitId) {outcome : Wait}
    (ho : outcome.hasSleeper = false) :
    (t.resolve w outcome).2.sleepers + (t.resolve w outcome).1.toList.length ≤ t.sleepers := by
  unfold resolve
  split
  · next sleeper h =>
    obtain ⟨hlt, hget⟩ := Array.getElem?_eq_some_iff.1 h
    have hset := Array.countP_set (p := Wait.hasSleeper) (a := outcome) hlt
    have hone := Array.boole_getElem_le_countP (p := Wait.hasSleeper) hlt
    rw [hget] at hset hone
    simp only [sleepers, Array.setIfInBounds_def, dif_pos hlt, hset, ho]
    cases sleeper with
    | none => exact Nat.le_refl _
    | some i =>
      have hsleeps : (Wait.pending (some i)).hasSleeper = true := rfl
      rw [hsleeps, if_pos rfl] at hone ⊢
      rw [if_neg Bool.false_ne_true, Option.toList_some, List.length_singleton]
      omega
  · exact Nat.le_refl _

theorem sleepers_resolveAll_le (t : Timetable) {outcome : Wait} (ho : outcome.hasSleeper = false)
    (ws : List WaitId) :
    (t.resolveAll outcome ws).2.sleepers + (t.resolveAll outcome ws).1.length ≤ t.sleepers := by
  induction ws generalizing t with
  | nil => exact Nat.le_refl _
  | cons w rest ih =>
    have hw := sleepers_resolve_le t w ho
    have hrest := ih (t.resolve w outcome).2
    simp only [resolveAll, List.length_append]
    omega

theorem sleepers_cancelTimer_le (t : Timetable) (waiter : Nat) :
    (t.cancelTimer waiter).2.sleepers + (t.cancelTimer waiter).1.toList.length ≤ t.sleepers := by
  rw [cancelTimer_eq]
  split
  · exact Nat.le_refl _
  · exact sleepers_resolve_le { t with clock := (t.clock.cancelTimer waiter).2 } _ rfl

theorem sleepers_advance_le (t : Timetable) :
    t.advance.2.2.sleepers + t.advance.2.1.length ≤ t.sleepers :=
  sleepers_resolveAll_le { t with clock := t.clock.advance.2 } rfl _

theorem of_timer?_addTimer {t : Timetable} {waiter target seq : Nat} {wait : WaitId} {k : Nat}
    {timer : LiveTimer WaitId} (h : (t.addTimer waiter target seq wait).timer? k = some timer) :
    t.timer? k = some timer ∨ timer.deadline = target := by
  unfold addTimer Clock.addTimer TimerQueue.add? timer? at h
  by_cases hc : t.clock.timers.contains waiter
  · simp only [hc, if_true] at h
    exact .inl h
  · simp only [hc, Bool.false_eq_true, if_false, Std.TreeMap.getElem?_insert] at h
    split at h
    · obtain rfl := Option.some.inj h
      exact .inr rfl
    · exact .inl h

theorem liveTimers_addTimer_le (t : Timetable) (waiter target seq : Nat) (wait : WaitId) :
    (t.addTimer waiter target seq wait).liveTimers ≤ t.liveTimers + 1 := by
  unfold addTimer Clock.addTimer TimerQueue.add? liveTimers
  split
  · next timers h =>
    split at h
    · cases h
    · obtain rfl := Option.some.inj h
      exact Std.TreeMap.size_insert_le
  · exact Nat.le_succ _

theorem sleepers_newWait (t : Timetable) (i : Ticket) :
    (t.newWait (some i)).2.sleepers = t.sleepers + 1 :=
  Array.countP_push_of_pos rfl

end Timetable

namespace Machine

variable {ε τ : Type} {m m' m'' : Machine ε τ}

/-- The number of tasks that will be woken when the children of a job have settled. -/
def idlers (m : Machine ε τ) : Nat := m.jobs.countP (·.idleSleeper.isSome)

/-- Entries of the ready queue, and sleepers that may become one. -/
def wakeups (m : Machine ε τ) : Nat :=
  m.dispatcher.ready.length + m.timetable.sleepers + m.idlers

/-- No time goes by. At most `n` wake-ups and, for a delay, one timer are added. -/
structure Spends (n : Nat) (delay : Option Nat) (m m' : Machine ε τ) : Prop where
  polls : m'.dispatcher.polls = m.dispatcher.polls
  wakeups : m'.wakeups ≤ m.wakeups + n
  now : m'.now = m.now
  timers : ∀ {k timer}, m'.timetable.timer? k = some timer → m.timetable.timer? k = some timer ∨
    ∃ time ∈ delay, timer.deadline = min (m.now + time) maxTime
  live : m'.timetable.liveTimers ≤ m.timetable.liveTimers + delay.toList.length

theorem Spends.refl (m : Machine ε τ) : Spends 0 none m m :=
  ⟨rfl, Nat.le_refl _, rfl, .inl, Nat.le_refl _⟩

theorem Spends.trans {n n' : Nat} {delay : Option Nat} (h : Spends n none m m')
    (h' : Spends n' delay m' m'') : Spends (n + n') delay m m'' := by
  refine ⟨h'.polls.trans h.polls, ?_, h'.now.trans h.now, fun ht => ?_, ?_⟩
  · have := h.wakeups
    have := h'.wakeups
    omega
  · rcases h'.timers ht with ht | ⟨time, hd, he⟩
    · exact (h.timers ht).imp id (by simp)
    · exact .inr ⟨time, hd, h.now ▸ he⟩
  · have := h.live
    have := h'.live
    simp only [Option.toList_none, List.length_nil] at *
    omega

theorem Spends.after {n : Nat} {delay : Option Nat} (h : Spends 0 none m m')
    (h' : Spends n delay m' m'') : Spends n delay m m'' :=
  Nat.zero_add n ▸ h.trans h'

theorem Spends.andThen {n : Nat} {delay : Option Nat} (h : Spends n delay m m')
    (h' : Spends 0 none m' m'') : Spends n delay m m'' := by
  refine ⟨h'.polls.trans h.polls, Nat.le_trans h'.wakeups h.wakeups, h'.now.trans h.now,
    fun ht => ?_, Nat.le_trans h'.live h.live⟩
  rcases h'.timers ht with ht | ⟨time, hd, -⟩
  · exact h.timers ht
  · cases hd

theorem Spends.weaken {n n' : Nat} {delay : Option Nat} (h : Spends n none m m') (hn : n ≤ n') :
    Spends n' delay m m' := by
  refine ⟨h.polls, Nat.le_trans h.wakeups (Nat.add_le_add_left hn _), h.now,
    fun ht => (h.timers ht).imp id (by simp), Nat.le_trans h.live ?_⟩
  exact Nat.add_le_add_left (by simp) _

theorem spends_wakeAll {t : Timetable} {signals : Array Signal} {ss : List Ticket}
    (hs : t.sleepers + ss.length ≤ m.timetable.sleepers) (hnow : t.now = m.now)
    (ht : ∀ {k timer}, t.timer? k = some timer → m.timetable.timer? k = some timer)
    (hl : t.liveTimers ≤ m.timetable.liveTimers) :
    Spends 0 none m ({ m with timetable := t, signals := signals }.wakeAll ss) := by
  refine ⟨Dispatcher.polls_wakeAll .., ?_, hnow, fun h => .inl (ht h), hl⟩
  have hready := Dispatcher.length_ready_wakeAll_le m.dispatcher ss
  have hw : ({ m with timetable := t, signals := signals }.wakeAll ss).wakeups =
      (m.dispatcher.wakeAll ss).ready.length + t.sleepers + m.idlers := rfl
  rw [hw, wakeups]
  omega

theorem spends_updateEnv (m : Machine ε τ) (f : ε → ε) : Spends 0 none m (m.updateEnv f) :=
  ⟨rfl, Nat.le_refl _, rfl, .inl, Nat.le_refl _⟩

theorem idlers_set_le {j : JobId} {job new : Job} (h : m.job? j = some job)
    (hnew : new.idleSleeper.isSome → job.idleSleeper.isSome) :
    (m.jobs.setIfInBounds j new).countP (·.idleSleeper.isSome) ≤ m.idlers := by
  obtain ⟨hlt, hget⟩ := Array.getElem?_eq_some_iff.1 h
  have hset := Array.countP_set (p := fun job : Job => job.idleSleeper.isSome) (a := new) hlt
  have hone := Array.boole_getElem_le_countP (p := fun job : Job => job.idleSleeper.isSome) hlt
  rw [hget] at hset hone
  simp only [Array.setIfInBounds_def, dif_pos hlt, hset, idlers]
  split <;> split <;> simp_all

theorem idlers_set_le_succ (m : Machine ε τ) (j : JobId) (new : Job) :
    (m.jobs.setIfInBounds j new).countP (·.idleSleeper.isSome) ≤ m.idlers + 1 := by
  rw [Array.setIfInBounds_def, idlers]
  split
  · next hlt =>
    rw [Array.countP_set hlt]
    split <;> split <;> omega
  · exact Nat.le_succ _

theorem spends_set {j : JobId} {job new : Job} (h : m.job? j = some job)
    (hnew : new.idleSleeper.isSome → job.idleSleeper.isSome) :
    Spends 0 none m { m with jobs := m.jobs.setIfInBounds j new } :=
  ⟨rfl, Nat.add_le_add_left (idlers_set_le h hnew) _, rfl, .inl, Nat.le_refl _⟩

theorem spends_updateJob (m : Machine ε τ) {j : JobId} {f : Job → Job}
    (hf : ∀ job, (f job).idleSleeper = job.idleSleeper) : Spends 0 none m (m.updateJob j f) := by
  cases hj : m.job? j with
  | none =>
    rw [updateJob_of_none hj]
    exact .refl m
  | some job =>
    rw [updateJob_eq_set hj]
    exact spends_set hj fun h => hf job ▸ h

theorem spends_interrupt (m : Machine ε τ) (wait : Nat × OpenWait) :
    Spends 0 none m (m.interrupt wait) := by
  obtain ⟨waiter, on⟩ := wait
  cases on with
  | signal w =>
    have hclock := Timetable.clock_resolve m.timetable w .cancelled
    have hspends := @spends_wakeAll ε τ m (m.timetable.resolve w .cancelled).2 m.signals _
      (Timetable.sleepers_resolve_le m.timetable w rfl) (congrArg Clock.now hclock)
      (fun ht => by rwa [Timetable.timer?, hclock] at ht)
      (Nat.le_of_eq (congrArg (·.timers.live.size) hclock))
    exact hspends
  | timer =>
    have hclock := Timetable.clock_cancelTimer m.timetable waiter
    have hlive : ∀ k, (m.timetable.clock.cancelTimer waiter).2.timers.live[k]? =
        if k = waiter then none else m.timetable.timer? k :=
      fun k => TimerQueue.live_remove waiter k
    refine @spends_wakeAll ε τ m (m.timetable.cancelTimer waiter).2 m.signals _
      (Timetable.sleepers_cancelTimer_le m.timetable waiter)
      ((congrArg Clock.now hclock).trans rfl)
      (fun {k timer} ht => ?_) ?_
    · rw [Timetable.timer?, hclock, hlive] at ht
      split at ht
      · cases ht
      · exact ht
    · rw [Timetable.liveTimers, hclock]
      unfold Clock.cancelTimer TimerQueue.remove
      cases hw : m.timetable.clock.timers.live[waiter]? with
      | none => exact Nat.le_refl _
      | some timer => exact Std.TreeMap.size_erase_le

theorem spends_interruptAll (m : Machine ε τ) (waits : List (Nat × OpenWait)) :
    Spends 0 none m (m.interruptAll waits) := by
  induction waits generalizing m with
  | nil => exact .refl m
  | cons wait rest ih => exact (spends_interrupt m wait).after (ih (m.interrupt wait))

theorem spends_cancelOne {j : JobId} {job : Job} (h : m.job? j = some job) :
    Spends 0 none m (m.cancelOne j job) := by
  have hset : Spends 0 none m
      { m with jobs := m.jobs.setIfInBounds j { job with cancelled := true, pending := [] } } :=
    spends_set h id
  exact hset.after (spends_interruptAll _ _)

theorem spends_cancel (m : Machine ε τ) (j : JobId) : Spends 0 none m (m.cancel j) :=
  cancelAll_induction .refl .after (fun h _ => spends_cancelOne h) m [j]

theorem spends_fail (m : Machine ε τ) (j : JobId) (kind : ExceptionKind) :
    Spends 0 none m (m.fail j kind) :=
  fail_induction .refl .after (fun h _ => spends_cancelOne h)
    (fun _ h _ => spends_set h id) m j kind

theorem spends_conclude (m : Machine ε τ) (j : JobId) (result : Completion) :
    Spends 0 none m (m.conclude j result) := by
  unfold conclude
  split
  · exact .refl m
  · exact spends_cancel m j
  · exact spends_fail m j _

theorem spends_passOnFailure (m : Machine ε τ) (job : Job) :
    Spends 0 none m (m.passOnFailure job) := by
  unfold passOnFailure
  split
  · split
    · exact .refl m
    · exact spends_fail m _ _
  · exact .refl m

theorem spends_fire (m : Machine ε τ) (s : SignalId) : Spends 0 none m (m.fire s) := by
  unfold fire
  split
  · next waiters h =>
    have hdone : ∀ s, Wait.done ≠ .pending s := nofun
    have hclock := Timetable.clock_resolveAll m.timetable hdone waiters
    exact spends_wakeAll (Timetable.sleepers_resolveAll_le m.timetable rfl waiters)
      (congrArg Clock.now hclock) (fun ht => by rwa [Timetable.timer?, hclock] at ht)
      (Nat.le_of_eq (congrArg (·.timers.live.size) hclock))
  · exact .refl m

theorem spends_newSignal (m : Machine ε τ) : Spends 0 none m m.newSignal.2 :=
  ⟨rfl, Nat.le_refl _, rfl, .inl, Nat.le_refl _⟩

theorem spends_newJob (m : Machine ε τ) (kind : JobRole) (parent : Option JobId) :
    Spends 0 none m (m.newJob kind parent).2 := by
  refine ⟨rfl, Nat.le_of_eq ?_, rfl, .inl, Nat.le_refl _⟩
  have hidlers : (m.newJob kind parent).2.idlers = m.idlers := by
    simp [idlers, newJob, newSignal]
  have hw : (m.newJob kind parent).2.wakeups =
      m.dispatcher.ready.length + m.timetable.sleepers + (m.newJob kind parent).2.idlers := rfl
  rw [hw, hidlers, wakeups, Nat.add_zero]

theorem spends_child (m : Machine ε τ) (p : JobId) (kind : JobRole) :
    Spends 0 none m (m.child p kind).2 :=
  (spends_newJob m kind (some p)).after (spends_updateJob _ fun _ => rfl)

theorem spends_spawn (m : Machine ε τ) (task : τ) : Spends 1 none m (m.spawn task) := by
  refine ⟨rfl, ?_, rfl, .inl, Nat.le_refl _⟩
  have hw : (m.spawn task).wakeups =
      (m.dispatcher.ready ++ [m.dispatcher.seats.size]).length + m.timetable.sleepers + m.idlers :=
    rfl
  rw [hw, wakeups, List.length_append, List.length_singleton]
  omega

/-- Whoever waits for the last child gives up the place of a sleeper for an entry in the queue. -/
theorem spends_unlink (m : Machine ε τ) (p c : JobId) : Spends 0 none m (m.unlink p c) := by
  unfold unlink
  split
  · exact .refl m
  · next pj hp =>
    have hp := (Option.filter_eq_some_iff.1 hp).1
    dsimp only
    split
    · refine ⟨Dispatcher.polls_wakeAll .., ?_, rfl, .inl, Nat.le_refl _⟩
      have hready := Dispatcher.length_ready_wakeAll_le m.dispatcher pj.idleSleeper.toList
      obtain ⟨hlt, hget⟩ := Array.getElem?_eq_some_iff.1 hp
      have hset := Array.countP_set (p := fun job : Job => job.idleSleeper.isSome)
        (a := { pj with children := [], idleSleeper := none }) hlt
      have hone := Array.boole_getElem_le_countP (p := fun job : Job => job.idleSleeper.isSome) hlt
      rw [hget] at hset hone
      have hw : ({ m with
            jobs := m.jobs.setIfInBounds p { pj with children := [], idleSleeper := none } }.wakeAll
          pj.idleSleeper.toList).wakeups =
          (m.dispatcher.wakeAll pj.idleSleeper.toList).ready.length + m.timetable.sleepers +
            (m.jobs.setIfInBounds p { pj with children := [], idleSleeper := none }).countP
              (·.idleSleeper.isSome) := rfl
      rw [hw, wakeups, idlers, Array.setIfInBounds_def, dif_pos hlt, hset]
      cases hs : pj.idleSleeper with
      | none =>
        simp only [hs, Option.toList_none, List.length_nil] at hready ⊢
        simp
        omega
      | some i =>
        simp only [hs, Option.toList_some, List.length_singleton, Option.isSome_some, if_true]
          at hready hone ⊢
        simp
        omega
    · exact spends_set hp id

theorem spends_settle (m : Machine ε τ) (j : JobId) : Spends 0 none m (m.settle j).2 := by
  unfold settle
  split
  · exact .refl m
  · next job _ =>
    have h₁ := ((spends_updateJob m (j := j) (f := ({ · with
      outcome := some job.finalOutcome
      failureReported := job.failureReported || job.failure.isSome })) fun _ => rfl).after
        (spends_passOnFailure _ job)).after (spends_fire _ job.completion)
    cases job.parent with
    | none => exact h₁.after (spends_updateJob _ fun _ => rfl)
    | some p => exact (h₁.after (spends_unlink _ p j)).after (spends_updateJob _ fun _ => rfl)

theorem spends_newWait (m : Machine ε τ) (ticket : Ticket) {j : JobId} {f : Job → Job}
    (hf : ∀ job, (f job).idleSleeper = job.idleSleeper) :
    Spends 1 none m
      ({ m with timetable := (m.timetable.allocate.2.newWait (some ticket)).2 }.updateJob j f) := by
  have hwait : Spends 1 none m
      { m with timetable := (m.timetable.allocate.2.newWait (some ticket)).2 } := by
    refine ⟨rfl, ?_, rfl, .inl, Nat.le_refl _⟩
    have hs := Timetable.sleepers_newWait m.timetable.allocate.2 ticket
    have hsame : m.timetable.allocate.2.sleepers = m.timetable.sleepers := rfl
    simp only [Machine.wakeups, hs, hsame, idlers]
    omega
  exact hwait.trans (spends_updateJob _ hf)

theorem spends_beginDelay (m : Machine ε τ) (ticket : Ticket) (j : JobId) (duration : Nat) :
    Spends 1 (some duration) m (m.beginDelay ticket j duration).2 := by
  unfold beginDelay
  split
  · have hready := Dispatcher.length_ready_wake_le m.dispatcher ticket
    refine ⟨Dispatcher.polls_wake .., ?_, rfl, .inl, Nat.le_succ _⟩
    have hw : (m.wake ticket).wakeups =
        (m.dispatcher.wake ticket).ready.length + m.timetable.sleepers + m.idlers := rfl
    rw [hw, Machine.wakeups]
    omega
  · have hwait := spends_newWait m ticket (j := j)
      (f := fun job => { job with pending := job.pending ++ [(m.timetable.clock.nextSeq, .timer)] })
      fun _ => rfl
    have hclock := m.timetable.allocate.2
    refine ⟨rfl, ?_, ?_, fun ht => ?_, ?_⟩
    · exact hwait.wakeups
    · unfold beginWait Machine.now Timetable.now
      dsimp only [updateJob, Timetable.addTimer, Clock.addTimer]
      split <;> rfl
    · exact (Timetable.of_timer?_addTimer ht).imp id fun hd => ⟨duration, rfl, hd⟩
    · exact Timetable.liveTimers_addTimer_le ..

theorem spends_beginSignalWait (m : Machine ε τ) (ticket : Ticket) (j : JobId) (s : SignalId) :
    Spends 1 none m (m.beginSignalWait ticket j s).2 := by
  have hwait := spends_newWait m ticket (j := j)
    (f := fun job => { job with
      pending := job.pending ++ [(m.timetable.clock.nextSeq, .signal m.timetable.waits.size)] })
    fun _ => rfl
  exact ⟨rfl, hwait.wakeups, rfl, hwait.timers, hwait.live⟩

theorem spends_beginJoin (m : Machine ε τ) (ticket : Ticket) (j : JobId) (s : SignalId) :
    Spends 1 none m (m.beginJoin ticket j s).2 := by
  unfold beginJoin
  split
  · exact (Spends.refl m).weaken (Nat.zero_le 1)
  · split
    · exact (Spends.refl m).weaken (Nat.zero_le 1)
    · exact spends_beginSignalWait m ticket j s

theorem spends_beginAwait (m : Machine ε τ) (ticket : Ticket) (j : JobId) (s : SignalId) :
    Spends 1 none m (m.beginAwait ticket j s).2 := by
  unfold beginAwait
  split
  · exact (Spends.refl m).weaken (Nat.zero_le 1)
  · exact spends_beginJoin m ticket j s

theorem spends_awaitChildren {ticket : Ticket} {j : JobId} {idle : Bool}
    (h : m.awaitChildren ticket j = (idle, m')) :
    Spends (if idle then 0 else 1) none m m' := by
  unfold awaitChildren at h
  cases hj : m.job? j with
  | none =>
    rw [hj] at h
    dsimp only at h
    rw [updateJob_of_none hj] at h
    obtain ⟨rfl, rfl⟩ := Prod.mk.inj h
    exact .refl m
  | some job =>
    rw [hj] at h
    dsimp only at h
    rw [updateJob_eq_set hj] at h
    generalize ((some job).elim [] (·.children)).filter m.isHeld = children at h
    obtain ⟨rfl, rfl⟩ := Prod.mk.inj h
    cases children with
    | nil => exact spends_set hj nofun
    | cons _ _ =>
      exact ⟨rfl, Nat.add_le_add_left (idlers_set_le_succ m j _) _, rfl, .inl, Nat.le_refl _⟩

theorem spends_close (m : Machine ε τ) (ticket : Ticket) (j : JobId) (result : Completion) :
    Spends 1 none m (m.close ticket j result).2 := by
  have hcon := spends_conclude m j result
  unfold close
  match ha : (m.conclude j result).awaitChildren ticket j with
  | (true, m') =>
    have hawait : Spends 0 none _ m' := spends_awaitChildren ha
    exact ((hcon.after hawait).after (spends_settle m' j)).weaken (Nat.zero_le 1)
  | (false, m') =>
    have hawait : Spends 1 none _ m' := spends_awaitChildren ha
    exact hcon.trans hawait

theorem now_advance {time : Nat} (h : m.timetable.clock.next? = some time) :
    m.advance.2.now = max m.now time := by
  obtain ⟨due, left, -, -, hclock, -⟩ := Timetable.exists_takenDue_advance h
  exact congrArg Clock.now hclock

/-- Moving the clock on wakes sleepers and takes off a timer. -/
theorem wakeups_advance_le (m : Machine ε τ) : m.advance.2.wakeups ≤ m.wakeups := by
  have hready := Dispatcher.length_ready_wakeAll_le m.dispatcher m.timetable.advance.2.1
  have hs := Timetable.sleepers_advance_le m.timetable
  have hw : m.advance.2.wakeups =
      (m.dispatcher.wakeAll m.timetable.advance.2.1).ready.length +
        m.timetable.advance.2.2.sleepers + m.idlers := rfl
  rw [hw, wakeups]
  omega

theorem liveTimers_advance_lt {time : Nat} (h : m.timetable.clock.next? = some time) :
    m.advance.2.timetable.liveTimers < m.timetable.liveTimers := by
  obtain ⟨due, left, hne, htaken, hclock, -⟩ := Timetable.exists_takenDue_advance h
  have hleft : m.advance.2.timetable.liveTimers = left.live.size :=
    congrArg (·.timers.live.size) hclock
  have hpos : 0 < due.length := List.length_pos_iff.2 hne
  have hsize : left.live.size + due.length = m.timetable.liveTimers := htaken.size
  omega

theorem of_timer?_advance {time : Nat} (h : m.timetable.clock.next? = some time) {k : Nat}
    {timer : LiveTimer WaitId} (ht : m.advance.2.timetable.timer? k = some timer) :
    m.timetable.timer? k = some timer := by
  obtain ⟨due, left, -, htaken, hclock, -⟩ := Timetable.exists_takenDue_advance h
  have ht : left.live[k]? = some timer := by
    have htimers : m.advance.2.timetable.clock.timers = left := congrArg Clock.timers hclock
    rw [Timetable.timer?, htimers] at ht
    exact ht
  rcases htaken.kept k with hk | ⟨hk, -⟩
  · exact hk.symm.trans ht
  · rw [hk] at ht
    cases ht

end Machine

end RacePuzzle
