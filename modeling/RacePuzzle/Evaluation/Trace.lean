import RacePuzzle.Machine.Job
import RacePuzzle.Program.Statement

/-! What a run leaves behind: which statement did what, and when. -/
namespace RacePuzzle

/-- A print that an observer of the run sees. -/
structure TimedPrint where
  value : String
  time : Nat
  deriving DecidableEq, Repr

inductive Referent
  | task (job : JobId)
  | deferred (job : JobId) (result : String)
  /-- A bare job is nothing but a signal. -/
  | bare (signal : SignalId)
  deriving DecidableEq, Repr

inductive Mark
  | began
  /-- The statement ended, and not with an exception. -/
  | ended
  /-- The statement bound its handle. -/
  | bound (handle : Referent)
  /-- What the handle that the statement uses stood for, if it was bound. -/
  | referred (handle : Option Referent)
  /-- What the awaited job had settled with. -/
  | awaited (outcome : Option Outcome)
  | printed (value : String)
  deriving DecidableEq, Repr

structure TraceEntry where
  statement : StatementId
  mark : Mark
  time : Nat
  deriving DecidableEq, Repr

/-- Of a trace an observer sees the prints. -/
def TraceEntry.event? (entry : TraceEntry) : Option TimedPrint :=
  match entry.mark with
  | .printed value => some ⟨value, entry.time⟩
  | _ => none

end RacePuzzle
