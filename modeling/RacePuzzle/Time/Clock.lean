import RacePuzzle.Time.TimerQueue

/-! A logical clock. It stands still until it is advanced to the earliest deadline, and then
hands out every timer due at it in the order of their sequence numbers. -/
namespace RacePuzzle

structure Clock (α : Type) where
  /-- The next sequence number. -/
  nextSeq : Nat
  now : Nat
  timers : TimerQueue α

namespace Clock

variable {α : Type}

def start : Clock α := ⟨0, 0, .empty⟩

instance : Inhabited (Clock α) := ⟨start⟩

def allocate (c : Clock α) : Nat × Clock α :=
  (c.nextSeq, { c with nextSeq := c.nextSeq + 1 })

/-- Adds a timer for `waiter`; of two for the same waiter the first stays. -/
def addTimer (c : Clock α) (waiter target seq : Nat) (content : α) : Clock α :=
  match c.timers.add? waiter target seq content with
  | some timers => { c with timers := timers }
  | none => c

def cancelTimer (c : Clock α) (waiter : Nat) : Option α × Clock α :=
  let (content, timers) := c.timers.remove waiter
  (content, { c with timers := timers })

def next? (c : Clock α) : Option Nat := c.timers.peek?

/-- Takes the timers that are due at the deadline `time`. -/
def takeDue (time : Nat) (q : TimerQueue α) : List (Nat × α) × TimerQueue α :=
  if q.peek? = some time then
    match h : q.pop? with
    | none => ([], q)
    | some ((key, content), rest) =>
      have : rest.keys.size < q.keys.size := TimerQueue.size_pop?_lt h
      let (due, left) := takeDue time rest
      ((key.id, content) :: due, left)
  else ([], q)
termination_by q.keys.size

/-- Moves on to the earliest deadline. Gives the waiters that were due, with their contents. -/
def advance (c : Clock α) : List (Nat × α) × Clock α :=
  match c.next? with
  | none => ([], c)
  | some time =>
    let (due, timers) := takeDue time c.timers
    (due, { c with now := max c.now time, timers := timers })

end Clock

end RacePuzzle
