import RacePuzzle.Proofs.Evaluation.Completion
import RacePuzzle.Proofs.Evaluation.StructuredConcurrency

/-! What the limits of a run change. A run with more room goes on where the other one stopped, and a
run needs no more room than its program has statements and delays. -/
namespace RacePuzzle

variable {t : Statement} {L : Ledger} {limits limits' : Limits} {m : ProgramMachine} {s s' : Snapshot}

namespace Snapshot

theorem steps_advance {isDone : ProgramMachine → Bool}
    (hon : Machine.GoesOn limits isDone m.drain) :
    Steps ⟨m.drain, .idle⟩ ⟨m.drain.advance.2, .idle⟩ :=
  let ⟨_, hnext, _⟩ := hon.next
  .single (.tick (Machine.ready_drain m) hnext)

/-- A run goes on from where its ready queue first becomes empty. -/
theorem steps_drain_runFor (limits : Limits) (n : Nat) (m : ProgramMachine) :
    Steps ⟨m.drain, .idle⟩ ⟨(m.runFor limits Statement.hasEnded n).2, .idle⟩ := by
  induction n generalizing m with
  | zero =>
    rw [Machine.runFor_zero]
    by_cases hon : Machine.GoesOn limits Statement.hasEnded m.drain
    · rw [hon.stopOr]
      exact steps_advance hon
    · rw [(Machine.stopOr_of_not_goesOn hon _).1]
  | succ n ih =>
    rw [Machine.runFor_succ]
    by_cases hon : Machine.GoesOn limits Statement.hasEnded m.drain
    · rw [hon.stopOr]
      exact (steps_advance hon).trans ((steps_drain _).trans (ih _))
    · rw [(Machine.stopOr_of_not_goesOn hon _).1]

/-- A run with more room comes by where the other one stops. -/
theorem steps_runFor_runFor (hhorizon : limits.horizon ≤ limits'.horizon)
    (hpolls : limits.maxPolls ≤ limits'.maxPolls) {n n' : Nat} (hn : n ≤ n') (m : ProgramMachine) :
    Steps ⟨(m.runFor limits Statement.hasEnded n).2, .idle⟩
      ⟨(m.runFor limits' Statement.hasEnded n').2, .idle⟩ := by
  induction n generalizing m n' with
  | zero =>
    rw [Machine.runFor_zero]
    by_cases hon : Machine.GoesOn limits Statement.hasEnded m.drain
    · rw [hon.stopOr]
      cases n' with
      | zero => rw [Machine.runFor_zero, (hon.mono hhorizon hpolls).stopOr]
      | succ k =>
        rw [Machine.runFor_succ, (hon.mono hhorizon hpolls).stopOr]
        exact (steps_drain _).trans (steps_drain_runFor ..)
    · rw [(Machine.stopOr_of_not_goesOn hon _).1]
      exact steps_drain_runFor ..
  | succ n ih =>
    obtain ⟨k, rfl⟩ : ∃ k, n' = k + 1 := ⟨n' - 1, by omega⟩
    rw [Machine.runFor_succ]
    by_cases hon : Machine.GoesOn limits Statement.hasEnded m.drain
    · rw [hon.stopOr, Machine.runFor_succ, (hon.mono hhorizon hpolls).stopOr]
      exact ih (Nat.le_of_succ_le_succ hn) _
    · rw [(Machine.stopOr_of_not_goesOn hon _).1]
      exact steps_drain_runFor ..

end Snapshot

theorem runFor_of_finished (hhorizon : limits.horizon ≤ limits'.horizon)
    (hpolls : limits.maxPolls ≤ limits'.maxPolls) {n n' : Nat} (hn : n ≤ n')
    (hfinished : (m.runFor limits Statement.hasEnded n).1 = .finished) :
    m.runFor limits' Statement.hasEnded n' = m.runFor limits Statement.hasEnded n := by
  induction n using Nat.strongRecOn generalizing m n' with
  | ind n ih =>
    by_cases hon : Machine.GoesOn limits Statement.hasEnded m.drain
    · have hroom : (m.runFor limits Statement.hasEnded n).1 ≠ .outOfBudget := by
        rw [hfinished]
        exact nofun
      obtain ⟨k, rfl, hrun⟩ := Machine.runFor_of_goesOn hon hroom
      obtain ⟨k', rfl⟩ : ∃ k', n' = k' + 1 := ⟨n' - 1, by omega⟩
      rw [hrun] at hfinished ⊢
      rw [Machine.runFor_succ, (hon.mono hhorizon hpolls).stopOr]
      exact ih k (Nat.lt_succ_self k) (Nat.le_of_succ_le_succ hn) hfinished
    · have hended := (Machine.runFor_of_not_goesOn hon).2.1 hfinished
      rw [Machine.runFor_of_done hended, Machine.runFor_of_done hended]

theorem prints_prefix (h : History t L s) (hs : Snapshot.Steps s s') :
    prints s.machine <+: prints s'.machine := by
  induction hs with
  | refl => exact List.prefix_refl _
  | tail hsteps hstep ih =>
    obtain ⟨L₁, h₁, -⟩ := h.steps hsteps
    obtain ⟨new, hnew, -⟩ := (Snapshot.notes_step h₁.upheld hstep).trace
    refine ih.trans ?_
    rw [prints, prints, hnew, List.filterMap_append]
    exact List.prefix_append ..

/-- A program that comes to its end does so in a run that is finished. -/
theorem exists_finished (h : (t.evaluateWithin limits).termination ≠ .neverCompletes) :
    (t.runWith limits).1 = .finished ∧
      ∃ result time, (t.runWith limits).2.env.ending = some (result, time) := by
  unfold Statement.evaluateWithin at h
  generalize t.runWith limits = r at h
  obtain ⟨reason, m⟩ := r
  cases reason with
  | finished =>
    cases hended : m.env.ending with
    | none => simp only [hended, ne_eq, not_true_eq_false] at h
    | some ending => exact ⟨rfl, ending.1, ending.2, rfl⟩
  | stuck | pastHorizon | outOfBudget => exact absurd rfl h

/-- More room never changes the result of a program that comes to its end, and of any other program it
only adds to what is printed. -/
theorem more_room_only_goes_on (t : Statement) (limits limits' : Limits)
    (hhorizon : limits.horizon ≤ limits'.horizon)
    (hslices : limits.maxTimeslices ≤ limits'.maxTimeslices)
    (hpolls : limits.maxPolls ≤ limits'.maxPolls) :
    ((t.evaluateWithin limits).termination ≠ .neverCompletes →
      t.evaluateWithin limits' = t.evaluateWithin limits) ∧
    (t.evaluateWithin limits).events <+: (t.evaluateWithin limits').events := by
  refine ⟨fun h => ?_, ?_⟩
  · obtain ⟨hfinished, result, time, hended⟩ := exists_finished h
    have hsame : t.runWith limits' = t.runWith limits :=
      runFor_of_finished hhorizon hpolls hslices hfinished
    rw [evaluateWithin_of_finished hfinished hended,
      evaluateWithin_of_finished (hsame ▸ hfinished) (hsame ▸ hended), hsame]
  · obtain ⟨L, hL⟩ := (t.reaches_runWith limits).history
    have hsteps := Snapshot.steps_runFor_runFor hhorizon hpolls hslices t.loaded
    rw [events_eq_filterMap, events_eq_filterMap]
    exact prints_prefix hL hsteps

def tickTock : Statement :=
  .block 0 .coroutineScope [.leaf 1 (.print "tick"), .leaf 2 (.delay 5), .leaf 3 (.print "tock")]

theorem tickTock_goes_on :
    tickTock.evaluateWithin .default = tickTock.evaluateWithin ⟨5, 1, 10⟩ ∧
      (tickTock.evaluateWithin ⟨4, 1, 10⟩).events <+: (tickTock.evaluateWithin ⟨5, 1, 10⟩).events := by
  have hvalid : tickTock.validate = .ok () := by cbv
  have hbare : ∀ id var, .leaf id (.job var) ∉ tickTock.nodes := by
    simp [tickTock, Statement.nodes, Statement.bodyNodes]
  have hends : (tickTock.evaluateWithin ⟨5, 1, 10⟩).termination ≠ .neverCompletes :=
    termination_of_no_bare_jobs (Statement.validate_eq_ok_iff.1 hvalid) hbare (by decide) (by decide)
      (by decide)
  exact ⟨(more_room_only_goes_on tickTock ⟨5, 1, 10⟩ .default (by decide) (by decide) (by decide)).1 hends,
    (more_room_only_goes_on tickTock ⟨4, 1, 10⟩ ⟨5, 1, 10⟩ (by decide) (by decide) (by decide)).2⟩

/-- Limits that allow for two polls for each statement and one more, and for a timeslice for each delay,
do not stop a run. -/
theorem runWith_ne_outOfBudget (hpolls : 2 * t.size + 1 ≤ limits.maxPolls)
    (hslices : t.delays.length ≤ limits.maxTimeslices) : (t.runWith limits).1 ≠ .outOfBudget := by
  obtain ⟨k, r, hr, hstops⟩ :=
    Machine.exists_restsAt_runFor limits Statement.hasEnded limits.maxTimeslices t.loaded
  intro h
  have h : (t.loaded.runFor limits Statement.hasEnded limits.maxTimeslices).1 = .outOfBudget := h
  rw [h] at hstops
  exact not_outOfBudget hpolls hslices hr hstops

end RacePuzzle
