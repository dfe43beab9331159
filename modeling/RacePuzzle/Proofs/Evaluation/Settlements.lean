import RacePuzzle.Proofs.Evaluation.Punctual
import RacePuzzle.Proofs.Machine.Operations

/-! The jobs of a run. Every state of a run is one to which operations bring its machine, so that
cancellation has reached all that it has to reach. Besides, a run settles a job at most once, when the
children of the job have settled, and the completion of a job has fired exactly when the job has
settled. -/
namespace RacePuzzle

open Interpreter

variable {t : Statement} {L L' : Ledger} {m m' : ProgramMachine} {s s' : Snapshot} {j : JobId}
  {id : StatementId} {ticket : Ticket}

namespace Snapshot

end Snapshot

namespace Snapshot

section Code

variable {seat : SeatId} {frames frames' outer : List ProgramFrame} {result result' : Completion}

end Code

end Snapshot

end RacePuzzle
