import RacePuzzle.Machine.Task

/-! The run of a machine: poll until nothing is ready, then let the clock move on, until the run
is finished or cannot go on. -/
namespace RacePuzzle

/-- The time at which a run that has not finished counts as stuck. -/
def endOfTime : Nat := 10000000

structure Limits where
  /-- Timers past this time are never reached. -/
  horizon : Nat
  maxTimeslices : Nat
  maxPolls : Nat
  deriving DecidableEq, Repr

def Limits.default : Limits := ⟨endOfTime, 200000, 1000000⟩

inductive StopReason
  | finished
  /-- No task is ready and no timer is pending. -/
  | stuck
  /-- The next timer lies past the horizon. -/
  | pastHorizon
  | outOfBudget
  deriving DecidableEq, Repr

namespace Machine

variable {ε φ : Type} [FrameCode ε φ]

/-- Runs until `isDone` holds with no task ready. `timeslices` is how often the clock may still
move on and the run go on after it. -/
def runFor (limits : Limits) (isDone : FrameMachine ε φ → Bool) :
    (timeslices : Nat) → FrameMachine ε φ → StopReason × FrameMachine ε φ
  | timeslices, m =>
    let m := m.drain
    if isDone m then (.finished, m)
    else if limits.maxPolls < m.dispatcher.polls then (.outOfBudget, m)
    else
      match m.timetable.clock.next? with
      | none => (.stuck, m)
      | some time =>
        if limits.horizon < time then (.pastHorizon, m)
        else
          match timeslices with
          | 0 => (.outOfBudget, m.advance.2)
          | n + 1 => runFor limits isDone n m.advance.2

def runWithin (limits : Limits) (isDone : FrameMachine ε φ → Bool) (m : FrameMachine ε φ) :
    StopReason × FrameMachine ε φ :=
  m.runFor limits isDone limits.maxTimeslices

end Machine

end RacePuzzle
