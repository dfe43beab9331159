import Mathlib.Logic.Function.Iterate
import RacePuzzle.Machine.Run

/-! The loops of a run taken apart: one turn of polling, one timeslice, and what decides whether the
run goes on after it. -/
namespace RacePuzzle.Machine

section

variable {ε τ : Type} {m : Machine ε τ} {limits limits' : Limits} {isDone : Machine ε τ → Bool}

/-- What a run does where nothing is ready: it stops, or goes on as `next` says. -/
def stopOr (limits : Limits) (isDone : Machine ε τ → Bool) (m : Machine ε τ)
    (next : StopReason × Machine ε τ) : StopReason × Machine ε τ :=
  if isDone m then (.finished, m)
  else if limits.maxPolls < m.dispatcher.polls then (.outOfBudget, m)
  else
    m.timetable.clock.next?.elim (.stuck, m) fun time =>
      if limits.horizon < time then (.pastHorizon, m) else next

structure GoesOn (limits : Limits) (isDone : Machine ε τ → Bool) (m : Machine ε τ) : Prop where
  unfinished : isDone m = false
  polls : m.dispatcher.polls ≤ limits.maxPolls
  next : ∃ time, m.timetable.clock.next? = some time ∧ time ≤ limits.horizon

theorem GoesOn.mono (h : GoesOn limits isDone m) (hhorizon : limits.horizon ≤ limits'.horizon)
    (hpolls : limits.maxPolls ≤ limits'.maxPolls) : GoesOn limits' isDone m := by
  obtain ⟨time, hnext, htime⟩ := h.next
  exact ⟨h.unfinished, Nat.le_trans h.polls hpolls, time, hnext, Nat.le_trans htime hhorizon⟩

theorem GoesOn.stopOr (h : GoesOn limits isDone m) (next : StopReason × Machine ε τ) :
    m.stopOr limits isDone next = next := by
  obtain ⟨time, hnext, htime⟩ := h.next
  unfold Machine.stopOr
  rw [h.unfinished, hnext, if_neg Bool.false_ne_true, if_neg (Nat.not_lt_of_le h.polls)]
  exact if_neg (Nat.not_lt_of_le htime)

theorem stopOr_of_done (h : isDone m = true) (next : StopReason × Machine ε τ) :
    m.stopOr limits isDone next = (.finished, m) := by
  rw [stopOr, if_pos h]

/-- A run that does not go on stops where it is, and unless it is done it is not finished. -/
theorem stopOr_of_not_goesOn (h : ¬ GoesOn limits isDone m) (next : StopReason × Machine ε τ) :
    (m.stopOr limits isDone next).2 = m ∧
      ((m.stopOr limits isDone next).1 = .finished → isDone m = true) := by
  unfold stopOr
  split
  · next hdone => exact ⟨rfl, fun _ => hdone⟩
  · next hdone =>
    split
    · exact ⟨rfl, nofun⟩
    · next hpolls =>
      cases hnext : m.timetable.clock.next? with
      | none => exact ⟨rfl, nofun⟩
      | some time =>
        have hlate : limits.horizon < time := Nat.lt_of_not_le fun htime =>
          h ⟨by simpa using hdone, Nat.le_of_not_lt hpolls, time, hnext, htime⟩
        rw [Option.elim_some, if_pos hlate]
        exact ⟨rfl, nofun⟩

end

variable {ε φ : Type} [FrameCode ε φ] {m : FrameMachine ε φ}

theorem drain_of_nil (h : m.dispatcher.ready = []) : m.drain = m := by
  rw [drain]
  split
  · rfl
  · next he => cases h.symm.trans he

theorem drain_of_cons {id : SeatId} {rest : List SeatId} (h : m.dispatcher.ready = id :: rest) :
    m.drain = (m.runReady id rest).drain := by
  rw [drain]
  split
  · next he => cases h.symm.trans he
  · next he =>
    obtain ⟨rfl, rfl⟩ := List.cons.inj (h.symm.trans he)
    rfl

theorem ready_drain (m : FrameMachine ε φ) : m.drain.dispatcher.ready = [] := by
  fun_induction drain m with
  | case1 m h => exact h
  | case2 m id rest h _ ih => exact ih

/-- One turn of polling: the first entry of the ready queue is taken off. -/
def turn (m : FrameMachine ε φ) : FrameMachine ε φ :=
  match m.dispatcher.ready with
  | [] => m
  | id :: rest => m.runReady id rest

theorem turn_of_cons {id : SeatId} {rest : List SeatId} (h : m.dispatcher.ready = id :: rest) :
    m.turn = m.runReady id rest := by
  rw [turn, h]

/-- Polling is over after finitely many turns. -/
theorem exists_turns_drain (m : FrameMachine ε φ) : ∃ k, turn^[k] m = m.drain := by
  fun_induction drain m with
  | case1 m h => exact ⟨0, rfl⟩
  | case2 m id rest h _ ih =>
    obtain ⟨k, hk⟩ := ih
    refine ⟨k + 1, ?_⟩
    rw [Function.iterate_succ_apply, turn_of_cons h, hk]

theorem runFor_zero (limits : Limits) (isDone : FrameMachine ε φ → Bool) (m : FrameMachine ε φ) :
    m.runFor limits isDone 0 = stopOr limits isDone m.drain (.outOfBudget, m.drain.advance.2) := by
  refine (runFor.eq_def limits isDone 0 m).trans ?_
  unfold stopOr
  dsimp only
  cases m.drain.timetable.clock.next? <;> rfl

theorem runFor_succ (limits : Limits) (isDone : FrameMachine ε φ → Bool) (n : Nat)
    (m : FrameMachine ε φ) :
    m.runFor limits isDone (n + 1) =
      stopOr limits isDone m.drain (m.drain.advance.2.runFor limits isDone n) := by
  refine (runFor.eq_def limits isDone (n + 1) m).trans ?_
  unfold stopOr
  dsimp only
  cases m.drain.timetable.clock.next? <;> rfl

theorem runFor_of_done {isDone : FrameMachine ε φ → Bool} (h : isDone m.drain = true) (limits : Limits)
    (n : Nat) : m.runFor limits isDone n = (.finished, m.drain) := by
  cases n with
  | zero => rw [runFor_zero, stopOr_of_done h]
  | succ n => rw [runFor_succ, stopOr_of_done h]

/-- A run begins with polling, so that it does not matter whether it has been done before. -/
theorem runFor_drain (limits : Limits) (isDone : FrameMachine ε φ → Bool) (n : Nat) (m : FrameMachine ε φ) :
    m.drain.runFor limits isDone n = m.runFor limits isDone n := by
  have hdrain : m.drain.drain = m.drain := drain_of_nil (ready_drain m)
  cases n with
  | zero => rw [runFor_zero, runFor_zero, hdrain]
  | succ n => rw [runFor_succ, runFor_succ, hdrain]

section

variable {limits : Limits} {isDone : FrameMachine ε φ → Bool} {n : Nat}

/-- Where a run does not go on it stops, and it has finished just if it is done. -/
theorem runFor_of_not_goesOn (h : ¬ GoesOn limits isDone m.drain) :
    (m.runFor limits isDone n).2 = m.drain ∧
      ((m.runFor limits isDone n).1 = .finished ↔ isDone m.drain = true) := by
  refine ⟨?_, fun hfinished => ?_, fun hdone => by rw [runFor_of_done hdone]⟩
  · cases n with
    | zero => rw [runFor_zero, (stopOr_of_not_goesOn h _).1]
    | succ n => rw [runFor_succ, (stopOr_of_not_goesOn h _).1]
  · cases n with
    | zero => exact (stopOr_of_not_goesOn h _).2 (runFor_zero limits isDone m ▸ hfinished)
    | succ n => exact (stopOr_of_not_goesOn h _).2 (runFor_succ limits isDone n m ▸ hfinished)

/-- Where a run goes on and has room enough, it does so with the next timeslice. -/
theorem runFor_of_goesOn (h : GoesOn limits isDone m.drain)
    (hroom : (m.runFor limits isDone n).1 ≠ .outOfBudget) :
    ∃ k, n = k + 1 ∧ m.runFor limits isDone n = m.drain.advance.2.runFor limits isDone k := by
  cases n with
  | zero =>
    rw [runFor_zero, h.stopOr] at hroom
    exact absurd rfl hroom
  | succ k => exact ⟨k, rfl, by rw [runFor_succ, h.stopOr]⟩

theorem polls_le_of_runFor (hdone : isDone m.drain = false)
    (hroom : (m.runFor limits isDone n).1 ≠ .outOfBudget) :
    m.drain.dispatcher.polls ≤ limits.maxPolls := by
  refine Nat.le_of_not_lt fun hlate => hroom ?_
  cases n with
  | zero => rw [runFor_zero, stopOr, hdone, if_neg Bool.false_ne_true, if_pos hlate]
  | succ n => rw [runFor_succ, stopOr, hdone, if_neg Bool.false_ne_true, if_pos hlate]

end

end RacePuzzle.Machine
