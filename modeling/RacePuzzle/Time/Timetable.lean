import RacePuzzle.Time.Clock

/-! Waits and the clock that resolves them. A wait is resolved once, as done or as cancelled, and
gives up the ticket of the task that sleeps on it. -/
namespace RacePuzzle

/-- Stands for a task towards those who may wake it. -/
abbrev Ticket := Nat

abbrev WaitId := Nat

inductive Wait
  | pending (sleeper : Option Ticket)
  | done
  | cancelled
  deriving DecidableEq, Repr

structure Timetable where
  clock : Clock WaitId
  waits : Array Wait

namespace Timetable

def start : Timetable := ⟨.start, #[]⟩

def now (t : Timetable) : Nat := t.clock.now

def newWait (t : Timetable) (sleeper : Option Ticket) : WaitId × Timetable :=
  (t.waits.size, { t with waits := t.waits.push (.pending sleeper) })

/-- Resolves a pending wait as `outcome` and gives its sleeper. A resolved one stays. -/
def resolve (t : Timetable) (wait : WaitId) (outcome : Wait) : Option Ticket × Timetable :=
  match t.waits[wait]? with
  | some (.pending sleeper) => (sleeper, { t with waits := t.waits.setIfInBounds wait outcome })
  | _ => (none, t)

/-- Resolves waits in order and gives their sleepers in that order. -/
def resolveAll (t : Timetable) (outcome : Wait) : List WaitId → List Ticket × Timetable
  | [] => ([], t)
  | wait :: rest =>
    let (sleeper, t) := t.resolve wait outcome
    let (sleepers, t) := t.resolveAll outcome rest
    (sleeper.toList ++ sleepers, t)

def setSleeper (t : Timetable) (wait : WaitId) (sleeper : Ticket) : Timetable :=
  match t.waits[wait]? with
  | some (.pending _) =>
    { t with waits := t.waits.setIfInBounds wait (.pending (some sleeper)) }
  | _ => t

def allocate (t : Timetable) : Nat × Timetable :=
  let (seq, clock) := t.clock.allocate
  (seq, { t with clock := clock })

/-- Resolves `wait` as done at the time `target`. -/
def addTimer (t : Timetable) (waiter target seq : Nat) (wait : WaitId) : Timetable :=
  { t with clock := t.clock.addTimer waiter target seq wait }

/-- Takes a timer off the clock and resolves its wait as cancelled. -/
def cancelTimer (t : Timetable) (waiter : Nat) : Option Ticket × Timetable :=
  match t.clock.cancelTimer waiter with
  | (none, clock) => (none, { t with clock := clock })
  | (some wait, clock) => { t with clock := clock }.resolve wait .cancelled

/-- Moves on to the earliest deadline and resolves every wait due at it as done. Gives the
waiters and the sleepers in the order of resolution. -/
def advance (t : Timetable) : List Nat × List Ticket × Timetable :=
  let (due, clock) := t.clock.advance
  let (sleepers, t) := { t with clock := clock }.resolveAll .done (due.map Prod.snd)
  (due.map Prod.fst, sleepers, t)

end Timetable

end RacePuzzle
