import RacePuzzle.Proofs.Evaluation.Deadlock

/-! How a run stops. The program itself bounds the polls, the time and the number of timers of its
run, so that a run with room enough stops only at its end or in a deadlock. -/
namespace RacePuzzle

namespace Statement

def delays (t : Statement) : List Nat := t.nodes.filterMap delay?

end Statement

variable {t : Statement} {L L' : Ledger} {m : ProgramMachine} {s s' : Snapshot}

theorem sum_wakeups_le (l : List Statement) :
    (l.map Tariff.wakeups.node).sum ≤ 2 * l.length := by
  induction l with
  | nil => exact Nat.le_refl 0
  | cons s rest ih =>
    have hnode : Tariff.wakeups.node s ≤ 2 := by
      cases s with
      | leaf id action =>
        have := Statement.work_action_le action
        simp only [Tariff.node, Tariff.wakeups]
        omega
      | block id head inner =>
        cases head <;> simp [Tariff.node, Tariff.wakeups, Head.makesJob]
    simp only [List.map_cons, List.sum_cons, List.length_cons]
    omega

theorem sum_delayTimes (l : List Statement) :
    (l.map Tariff.delayTimes.node).sum = (l.filterMap Statement.delay?).sum := by
  induction l with
  | nil => rfl
  | cons s rest ih =>
    have hnode : Tariff.delayTimes.node s = s.delay?.getD 0 := by
      cases s <;> simp [Tariff.node, Tariff.delayTimes]
    rw [List.map_cons, List.sum_cons, ih, hnode, List.filterMap_cons]
    cases s.delay? <;> simp

theorem sum_delays (l : List Statement) :
    (l.map Tariff.delays.node).sum = (l.filterMap Statement.delay?).length := by
  induction l with
  | nil => rfl
  | cons s rest ih =>
    have hnode : Tariff.delays.node s = s.delay?.toList.length := by
      cases s <;> simp [Tariff.node, Tariff.delays]
    rw [List.map_cons, List.sum_cons, ih, hnode, List.filterMap_cons]
    cases s.delay? <;> simp [Nat.add_comm]

theorem Snapshot.cost_advance (m : ProgramMachine) (p : Tariff) :
    Snapshot.cost p ⟨m.advance.2, .idle⟩ = Snapshot.cost p ⟨m, .idle⟩ :=
  congrArg (· + 0) (Machine.work_congr _ (Machine.seats_wakeAll ..))

theorem Snapshot.Ticks.cost_eq (h : Snapshot.Ticks s s') (p : Tariff) : s'.cost p = s.cost p := by
  obtain ⟨m, f⟩ := s
  obtain ⟨m', f'⟩ := s'
  obtain rfl : m' = m.advance.2 := h.machine
  obtain rfl : f = .idle := h.idle
  obtain rfl : f' = .idle := h.focus
  exact cost_advance m p

/-- A program polls its tasks about twice for each of its statements. -/
theorem polls_le (h : History t L s) : s.machine.dispatcher.polls ≤ 2 * t.size + 1 := by
  have hall : s.machine.dispatcher.polls + s.machine.wakeups + s.cost .wakeups ≤
      1 + t.initial.cost .wakeups := by
    induction h with
    | start => exact Nat.le_of_eq rfl
    | @next L L' s s' h hs _ _ ih =>
      have hcost := Snapshot.cost_step h.upheld hs .wakeups
      rcases Snapshot.pays_step h.upheld hs with hpays | hticks
      · have := hpays.polls
        omega
      · have hwake := Machine.wakeups_advance_le s.machine
        have hpolls : s.machine.advance.2.dispatcher.polls = s.machine.dispatcher.polls :=
          Dispatcher.polls_wakeAll ..
        rw [hticks.machine, hpolls]
        omega
  rw [Snapshot.cost_initial] at hall
  have hsum := sum_wakeups_le t.nodes
  rw [Statement.length_nodes] at hsum
  omega

/-- No timer of a program comes later than all its delays take together. -/
theorem deadline_le (h : History t L s) :
    s.machine.now + s.cost .delayTimes ≤ t.delays.sum ∧
      ∀ {k timer}, s.machine.timetable.timer? k = some timer →
        timer.deadline + s.cost .delayTimes ≤ t.delays.sum := by
  induction h with
  | start =>
    refine ⟨?_, fun ht => ?_⟩
    · rw [Snapshot.cost_initial, sum_delayTimes]
      exact Nat.le_of_eq (Nat.zero_add _)
    · rw [show t.initial.machine = t.loaded from rfl, timer?_loaded] at ht
      cases ht
  | @next L L' s s' h hs _ _ ih =>
    have hcost := Snapshot.cost_step h.upheld hs .delayTimes
    obtain ⟨hnow, htimers⟩ := ih
    rcases Snapshot.pays_step h.upheld hs with hpays | hticks
    · refine ⟨by rw [hpays.now]; omega, fun ht => ?_⟩
      rcases hpays.timers ht with hold | ⟨time, htime, he⟩
      · have := htimers hold
        omega
      · have := Nat.le_trans (Nat.le_of_eq he) (Nat.min_le_left _ _)
        have := (Snapshot.price_of_delay? htime).1
        omega
    · obtain ⟨time, hnext⟩ := hticks.next
      rw [hticks.machine, hticks.cost_eq]
      refine ⟨?_, fun ht => htimers (Machine.of_timer?_advance hnext ht)⟩
      obtain ⟨k, timer, ht, rfl⟩ := TimerQueue.exists_live_of_peek? hnext
      have := htimers ht
      rw [Machine.now_advance hnext]
      omega

/-- Timers are set by delays that are not left any more. -/
theorem liveTimers_le (h : History t L s) (hs : Snapshot.Steps s s') :
    s'.machine.timetable.liveTimers + s'.cost .delays ≤
      s.machine.timetable.liveTimers + s.cost .delays := by
  induction hs with
  | refl => exact Nat.le_refl _
  | @tail s₁ s₂ hsteps hstep ih =>
    obtain ⟨L₁, h₁, -⟩ := h.steps hsteps
    have hcost := Snapshot.cost_step h₁.upheld hstep .delays
    rcases Snapshot.pays_step h₁.upheld hstep with hpays | hticks
    · have := hpays.live
      omega
    · obtain ⟨time, hnext⟩ := hticks.next
      have := Machine.liveTimers_advance_lt hnext
      rw [hticks.machine]
      omega

/-- A timer goes off at the end of every timeslice. -/
theorem liveTimers_le_of_restsAt {limits : Limits} {isDone : ProgramMachine → Bool} {n k : Nat}
    {r : ProgramMachine} (hr : Machine.RestsAt limits isDone n m k r) (h : History t L ⟨m, .idle⟩) :
    r.timetable.liveTimers + Snapshot.cost .delays ⟨r, .idle⟩ + n ≤
      m.timetable.liveTimers + Snapshot.cost .delays ⟨m, .idle⟩ + k := by
  induction hr generalizing L with
  | here => exact Nat.add_le_add_right (liveTimers_le h (Snapshot.steps_drain _)) _
  | @later n m k r time _ _ hnext _ _ ih =>
    have hdrain := liveTimers_le h (Snapshot.steps_drain m)
    obtain ⟨L₁, h₁, -⟩ := h.steps (Snapshot.steps_drain m)
    obtain ⟨L₂, h₂, -⟩ := h₁.step (.tick (Machine.ready_drain m) hnext)
    have hslice := ih h₂
    have hlt := Machine.liveTimers_advance_lt hnext
    have hcost := Snapshot.cost_advance m.drain .delays
    simp only at hdrain
    omega

theorem ofCompletion_ne_neverCompletes (result : Completion) :
    Ending.ofCompletion result ≠ .neverCompletes := by
  rcases result with kind | _
  · cases kind <;> nofun
  · nofun

/-- What an observer sees is what the machine has printed when the run stops. -/
theorem events_eq_filterMap (t : Statement) (limits : Limits) :
    (t.evaluateWithin limits).events =
      (t.runWith limits).2.env.trace.toList.filterMap TraceEntry.event? := by
  unfold Statement.evaluateWithin
  dsimp only
  split <;> rfl

/-- The evaluation of a program whose run comes to its end. -/
theorem evaluateWithin_of_finished {limits : Limits} (h : (t.runWith limits).1 = .finished)
    {result : Completion} {time : Nat}
    (hended : (t.runWith limits).2.env.ending = some (result, time)) :
    t.evaluateWithin limits =
      ⟨(t.runWith limits).2.env.trace.toList.filterMap TraceEntry.event?, .ofCompletion result,
        time⟩ := by
  unfold Statement.evaluateWithin
  generalize t.runWith limits = r at h hended
  obtain ⟨reason, m⟩ := r
  obtain rfl : reason = .finished := h
  have hended : m.env.ending = some (result, time) := hended
  simp only [hended]

/-- With room for its polls and its delays a run does not run out of either. -/
theorem not_outOfBudget {limits : Limits} (hpolls : 2 * t.size + 1 ≤ limits.maxPolls)
    (hslices : t.delays.length ≤ limits.maxTimeslices) {k : Nat} {r last : ProgramMachine}
    (hr : Machine.RestsAt limits Statement.hasEnded limits.maxTimeslices t.loaded k r) :
    ¬ Machine.StopsWith limits Statement.hasEnded k r .outOfBudget last := by
  rintro ⟨-, ⟨hover, -⟩ | ⟨rfl, ⟨time, hnext⟩, -⟩⟩
  · obtain ⟨L, hL⟩ := (Statement.RestsAt.reaches ⟨k, hr⟩ : t.Reaches ⟨r, .idle⟩).history
    have : r.dispatcher.polls ≤ 2 * t.size + 1 := polls_le hL
    omega
  · have hslice := liveTimers_le_of_restsAt hr (t := t) .start
    have hstart : Snapshot.cost .delays ⟨t.loaded, .idle⟩ = t.delays.length :=
      (Snapshot.cost_initial t _).trans (sum_delays t.nodes)
    have hnone : t.loaded.timetable.liveTimers = 0 := rfl
    have hlive := Machine.liveTimers_advance_lt hnext
    omega

/-- With room enough a run stops at its end or in a deadlock. -/
theorem stops_within {limits : Limits} (hhorizon : t.delays.sum ≤ limits.horizon)
    (hpolls : 2 * t.size + 1 ≤ limits.maxPolls) (hslices : t.delays.length ≤ limits.maxTimeslices)
    {k : Nat} {r last : ProgramMachine} {reason : StopReason}
    (hr : Machine.RestsAt limits Statement.hasEnded limits.maxTimeslices t.loaded k r)
    (h : Machine.StopsWith limits Statement.hasEnded k r reason last) :
    reason = .finished ∨ reason = .stuck := by
  obtain ⟨L, hL⟩ := (Statement.RestsAt.reaches ⟨k, hr⟩ : t.Reaches ⟨r, .idle⟩).history
  obtain ⟨-, hdeadline⟩ := deadline_le hL
  cases reason with
  | finished => exact .inl rfl
  | stuck => exact .inr rfl
  | pastHorizon =>
    obtain ⟨-, ⟨time, hnext, hlate⟩, -⟩ := h
    obtain ⟨k, timer, ht, rfl⟩ := TimerQueue.exists_live_of_peek? hnext
    have := hdeadline ht
    omega
  | outOfBudget => exact absurd h (not_outOfBudget hpolls hslices hr)

theorem awaitsBareJob_of_stuck (ht : t.Valid) {limits : Limits}
    (h : (t.runWith limits).1 = .stuck) : AwaitsBareJob t (t.runWith limits).2 := by
  obtain ⟨k, r, hr, hstops⟩ :=
    Machine.exists_restsAt_runFor limits Statement.hasEnded limits.maxTimeslices t.loaded
  obtain ⟨L, hL⟩ := (Statement.RestsAt.reaches ⟨k, hr⟩ : t.Reaches ⟨r, .idle⟩).history
  have hstops : Machine.StopsWith limits Statement.hasEnded k r (t.runWith limits).1
      (t.runWith limits).2 := hstops
  rw [h] at hstops
  obtain ⟨hdone, hnext, hlast⟩ := hstops
  rw [hlast]
  exact Stuck.awaitsBareJob ht ⟨hL, hr.ready, hnext⟩ (by simpa [Statement.hasEnded] using hdone)

/-- With room enough, a valid program without bare jobs comes to its end. -/
theorem ends_of_no_bare_jobs (ht : t.Valid) {limits : Limits}
    (hbare : ∀ id var, .leaf id (.job var) ∉ t.nodes) (hhorizon : t.delays.sum ≤ limits.horizon)
    (hpolls : 2 * t.size + 1 ≤ limits.maxPolls) (hslices : t.delays.length ≤ limits.maxTimeslices) :
    (t.runWith limits).1 = .finished ∧ ∃ result time,
      (t.runWith limits).2.env.ending = some (result, time) := by
  obtain ⟨k, r, hr, hstops⟩ :=
    Machine.exists_restsAt_runFor limits Statement.hasEnded limits.maxTimeslices t.loaded
  have hstops : Machine.StopsWith limits Statement.hasEnded k r (t.runWith limits).1
      (t.runWith limits).2 := hstops
  rcases stops_within hhorizon hpolls hslices hr hstops with hfinished | hstuck
  · rw [hfinished] at hstops
    obtain ⟨hdone, hlast⟩ := hstops
    obtain ⟨⟨result, time⟩, hended⟩ := Option.isSome_iff_exists.1 hdone
    exact ⟨hfinished, result, time, hlast ▸ hended⟩
  · obtain ⟨_, _, _, _, _, _, _, var, d, _, _, _, _, _, _, hd, -⟩ := awaitsBareJob_of_stuck ht hstuck
    exact absurd hd (hbare d var)

theorem termination_of_no_bare_jobs (ht : t.Valid) {limits : Limits}
    (hbare : ∀ id var, .leaf id (.job var) ∉ t.nodes) (hhorizon : t.delays.sum ≤ limits.horizon)
    (hpolls : 2 * t.size + 1 ≤ limits.maxPolls) (hslices : t.delays.length ≤ limits.maxTimeslices) :
    (t.evaluateWithin limits).termination ≠ .neverCompletes := by
  obtain ⟨hfinished, result, time, hended⟩ := ends_of_no_bare_jobs ht hbare hhorizon hpolls hslices
  rw [evaluateWithin_of_finished hfinished hended]
  exact ofCompletion_ne_neverCompletes result

/-- A run of a valid program gets stuck only on a bare job. One without bare jobs, given the time of
all its delays, a timeslice for each and two polls for each statement, comes to its end. -/
theorem stuck_only_on_bare_jobs (t : Statement) (ht : t.validate = .ok ()) (limits : Limits) :
    ((t.runWith limits).1 = .stuck → AwaitsBareJob t (t.runWith limits).2) ∧
    ((∀ id var, .leaf id (.job var) ∉ t.nodes) → t.delays.sum ≤ limits.horizon →
      2 * t.size + 1 ≤ limits.maxPolls → t.delays.length ≤ limits.maxTimeslices →
      (t.evaluateWithin limits).termination ≠ .neverCompletes) := by
  have hvalid := Statement.validate_eq_ok_iff.1 ht
  exact ⟨awaitsBareJob_of_stuck hvalid, fun hbare hhorizon hpolls hslices =>
    termination_of_no_bare_jobs hvalid hbare hhorizon hpolls hslices⟩

/-- Nobody completes the job that the program joins. -/
def forgottenJob : Statement :=
  .block 0 .coroutineScope [.leaf 1 (.job "a"), .leaf 2 (.join "a")]

def joinedDelay : Statement :=
  .block 0 .coroutineScope
    [.block 1 (.launchJob "a") [.leaf 2 (.delay 5)], .leaf 3 (.join "a")]

theorem forgotten_job_is_awaited :
    AwaitsBareJob forgottenJob (forgottenJob.runWith .default).2 ∧
      joinedDelay.evaluate.termination ≠ .neverCompletes := by
  have hstuck : (forgottenJob.runWith .default).1 = .stuck := by cbv
  have hvalid : forgottenJob.validate = .ok () := by cbv
  have hvalid' : joinedDelay.validate = .ok () := by cbv
  have hbare : ∀ id var, .leaf id (.job var) ∉ joinedDelay.nodes := by
    simp [joinedDelay, Statement.nodes, Statement.bodyNodes]
  exact ⟨(stuck_only_on_bare_jobs forgottenJob hvalid .default).1 hstuck,
    (stuck_only_on_bare_jobs joinedDelay hvalid' .default).2 hbare (by decide) (by decide)
      (by decide)⟩

end RacePuzzle
