import RacePuzzle.Evaluation.Timeline
import RacePuzzle.Evaluation.Work
import RacePuzzle.Machine.Run

/-! The evaluation of a program: a machine runs it as one task in a scope of its own, until it
ends or cannot go on. -/
namespace RacePuzzle

/-- Prints later than this count as never. -/
def patience : Nat := 1000000

namespace Statement

def loaded (t : Statement) : ProgramMachine :=
  let (outer, m) := (Machine.start ⟨0, [], #[], none⟩ : ProgramMachine).root .scope
  let (background, m) := m.root .background
  (m.updateEnv fun env => { env with background := background }).spawn
    ⟨.entry outer, [.rest outer [t], .program]⟩

def hasEnded (m : ProgramMachine) : Bool := m.env.ending.isSome

def runWith (t : Statement) (limits : Limits) : StopReason × ProgramMachine :=
  t.loaded.runWithin limits hasEnded

/-- A program that has not ended when its run stops counts as waiting until the horizon. -/
def evaluateWithin (t : Statement) (limits : Limits) : Evaluation :=
  let (outcome, m) := t.runWith limits
  let events := m.env.trace.toList.filterMap TraceEntry.event?
  match outcome, m.env.ending with
  | .finished, some (result, time) => ⟨events, .ofCompletion result, time⟩
  | _, _ => ⟨events, .neverCompletes, limits.horizon⟩

def evaluate (t : Statement) : Evaluation := t.evaluateWithin .default

/-- Whether the program waits forever or prints absurdly late. -/
def hangs (t : Statement) : Bool := t.evaluate.hangs patience

end Statement

end RacePuzzle
