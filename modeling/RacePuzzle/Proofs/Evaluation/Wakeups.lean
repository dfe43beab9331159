import RacePuzzle.Proofs.Evaluation.CancelledJobs

/-! No wake-up is lost. When no task is ready, every task that has not ended is known to one thing
that will wake it: a timer that is still to come, a signal that has not fired, or the children of a
job. -/
namespace RacePuzzle

variable {t : Statement} {L : Ledger} {m : ProgramMachine} {s : Snapshot}

structure Machine.Timely (m : ProgramMachine) : Prop where
  now : m.now ≤ maxTime
  timers : ∀ {k timer}, m.timetable.timer? k = some timer →
    m.now ≤ timer.deadline ∧ timer.deadline ≤ maxTime

/-- The clock moves on to the earliest deadline, so that it passes no timer. -/
theorem Machine.Timely.advance (h : m.Timely) (hm : m.Orderly) {time : Nat}
    (hnext : m.timetable.clock.next? = some time) : m.advance.2.Timely := by
  obtain ⟨_, first, hfirst, rfl⟩ := TimerQueue.exists_live_of_peek? hnext
  obtain ⟨hlow, hhigh⟩ := h.timers hfirst
  have hnow : m.advance.2.now = first.deadline := by
    rw [Machine.now_advance hnext]
    exact Nat.max_eq_right hlow
  refine ⟨hnow ▸ hhigh, fun ht => ?_⟩
  have hold := Machine.of_timer?_advance hnext ht
  have hle := TimerQueue.le_deadline_of_peek? hm.complete hnext hold
  exact ⟨hnow ▸ hle, (h.timers hold).2⟩

theorem History.timely (h : History t L s) : s.machine.Timely := by
  induction h with
  | start =>
    refine ⟨Nat.zero_le _, fun ht => ?_⟩
    rw [show t.initial.machine = t.loaded from rfl, timer?_loaded] at ht
    cases ht
  | @next L L' s s' h hs _ _ ih =>
    rcases Snapshot.pays_step h.upheld hs with hpays | hticks
    · refine ⟨hpays.now.symm ▸ ih.now, fun ht => ?_⟩
      rw [hpays.now]
      rcases hpays.timers ht with hold | ⟨time, -, hdeadline⟩
      · exact ih.timers hold
      · rw [hdeadline]
        exact ⟨Nat.le_min.2 ⟨Nat.le_add_right _ _, ih.now⟩, Nat.min_le_right _ _⟩
    · obtain ⟨time, hnext⟩ := hticks.next
      rw [hticks.machine]
      exact ih.advance h.upheld.sound.orderly hnext

/-- A wait that is not over knows the task, and its job is not cancelled and lists it. -/
structure Machine.Listed (m : ProgramMachine) (ticket : Ticket) (j : JobId) (waiter : Nat)
    (wait : WaitId) (on : OpenWait) : Prop where
  pending : m.timetable.waits[wait]? = some (.pending (some ticket))
  job : ∃ job, m.job? j = some job ∧ job.cancelled = false ∧ (waiter, on) ∈ job.pending

/-- The task waits for a timer, which stands in the queue and is not in the past. -/
def Machine.AwaitsTimer (m : ProgramMachine) (ticket : Ticket) (on : Suspension) : Prop :=
  ∃ j waiter wait timer, on = .wait j waiter wait ∧ m.Listed ticket j waiter wait .timer ∧
    m.timetable.timer? waiter = some timer ∧ timer.content = wait ∧ m.now ≤ timer.deadline ∧
    timer.key waiter ∈ m.timetable.clock.timers.keys.toList

/-- The task waits for a signal, which has not fired and will resolve the wait. -/
def Machine.AwaitsSignal (m : ProgramMachine) (ticket : Ticket) (on : Suspension) : Prop :=
  ∃ j waiter wait, on = .wait j waiter wait ∧ m.Listed ticket j waiter wait (.signal wait) ∧
    ∃ (s : SignalId) (waiters : List WaitId), m.signals[s]? = some ⟨false, waiters⟩ ∧ wait ∈ waiters

/-- A wait for a signal is registered with it, and with no timer. -/
theorem Machine.Sleeps.awaitsSignal {i : Ticket} {j : JobId} {k : Nat} {w : WaitId} {s : SignalId}
    (h : m.Sleeps i j k w) (hheeds : m.Heeds w (some s)) :
    m.AwaitsSignal i (.wait j k w) ∧ ¬ m.AwaitsTimer i (.wait j k w) := by
  refine ⟨?_, ?_⟩
  · obtain ⟨job, on, hjob, hc, hmem, hsource⟩ := h.listed
    cases on with
    | timer =>
      obtain ⟨timer, ht, hcontent⟩ := hsource
      exact absurd hcontent (hheeds.untimed rfl ht)
    | signal w' =>
      obtain ⟨rfl, hsource⟩ := hsource
      exact ⟨j, k, w', rfl, ⟨h.pending, job, hjob, hc, hmem⟩, hsource⟩
  · rintro ⟨_, _, _, timer, hon, -, ht, hcontent, -⟩
    cases hon
    exact hheeds.untimed rfl ht hcontent

end RacePuzzle
