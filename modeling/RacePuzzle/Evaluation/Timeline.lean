import RacePuzzle.Evaluation.Trace

/-! What an observer of a run sees: the prints with their times and the way the run ended, and
two ways to write this down. -/
namespace RacePuzzle

inductive Ending
  | completed
  | uncaughtException
  | uncaughtCancellation
  | neverCompletes
  deriving DecidableEq, Repr

namespace Ending

def marker : Ending → String
  | .completed => "(done)"
  | .uncaughtException => "(exception)"
  | .uncaughtCancellation => "(cancellation exception)"
  | .neverCompletes => "(waiting forever)"

/-- A run that ends by itself ends the way its program does. -/
def ofCompletion : Completion → Ending
  | .ok () => .completed
  | .error .cancellation => .uncaughtCancellation
  | .error _ => .uncaughtException

end Ending

structure Evaluation where
  events : List TimedPrint
  termination : Ending
  endTime : Nat
  deriving DecidableEq, Repr

namespace Evaluation

def timeline (e : Evaluation) : List TimedPrint :=
  e.events ++ [⟨e.termination.marker, e.endTime⟩]

def lines (e : Evaluation) : List String :=
  e.timeline.map fun event => "[" ++ toString event.time ++ "] " ++ event.value

/-- The words for the time that goes by between two instants. -/
def pause (earlier later : Nat) : List String :=
  if earlier = later then []
  else ["(" ++ toString ((later - earlier) / 1000) ++ " sec)"]

/-- The values in order, with the pauses between them, from the instant `time` on. -/
def narrate (time : Nat) : List TimedPrint → List String
  | [] => []
  | event :: rest => pause time event.time ++ event.value :: narrate event.time rest

/-- The values without their times; a pause stands wherever time goes by. -/
def sequential (e : Evaluation) : List String :=
  narrate 0 e.timeline

def hangs (e : Evaluation) (threshold : Nat) : Bool :=
  e.termination == .neverCompletes || e.events.any (threshold < ·.time)

end Evaluation

end RacePuzzle
