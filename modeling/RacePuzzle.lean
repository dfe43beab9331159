import RacePuzzle.Main
import RacePuzzle.Scenario.Work
import RacePuzzle.Proofs.Evaluation.Snapshot
import RacePuzzle.Proofs.Time.Timetable
import RacePuzzle.Proofs.Machine.Dispatcher
import RacePuzzle.Proofs.Machine.JobTree
import RacePuzzle.Proofs.Machine.Settling
import RacePuzzle.Proofs.Machine.Cancellation
import RacePuzzle.Proofs.Machine.Waiting
import RacePuzzle.Proofs.Machine.Evolution
import RacePuzzle.Proofs.Machine.Soundness
import RacePuzzle.Proofs.Machine.Suspension
import RacePuzzle.Proofs.Machine.Operations
import RacePuzzle.Proofs.Program.Place
import RacePuzzle.Proofs.Program.Pruning
import RacePuzzle.Proofs.Evaluation.Action
import RacePuzzle.Proofs.Evaluation.Upheld
import RacePuzzle.Proofs.Evaluation.Upkeep
import RacePuzzle.Proofs.Evaluation.History
import RacePuzzle.Proofs.Evaluation.Budget
import RacePuzzle.Proofs.Machine.Failure
import RacePuzzle.Proofs.Evaluation.CancelledJobs
import RacePuzzle.Proofs.Evaluation.Bindings
import RacePuzzle.Proofs.Evaluation.Completion
import RacePuzzle.Proofs.Evaluation.Stamps
import RacePuzzle.Proofs.Evaluation.Passages
import RacePuzzle.Proofs.Evaluation.StructuredConcurrency
import RacePuzzle.Proofs.Evaluation.References
import RacePuzzle.Proofs.Evaluation.Failures
import RacePuzzle.Proofs.Evaluation.SpawnFree
import RacePuzzle.Proofs.Simplification.Reductions
import RacePuzzle.Proofs.Simplification.InfiniteWaits
import RacePuzzle.Proofs.Simplification.Rounds
import RacePuzzle.Proofs.Machine.InStep
import RacePuzzle.Proofs.Simplification.Slimming
import RacePuzzle.Proofs.Simplification.Reconciliation
import RacePuzzle.Proofs.Simplification.Soundness
import RacePuzzle.Proofs.Evaluation.Account
import RacePuzzle.Proofs.Evaluation.Punctual
import RacePuzzle.Proofs.Evaluation.Settlements
import RacePuzzle.Proofs.Evaluation.Timekeeping
import RacePuzzle.Proofs.Evaluation.Rendezvous
import RacePuzzle.Proofs.Evaluation.Sleepers
import RacePuzzle.Proofs.Evaluation.Output
import RacePuzzle.Proofs.Evaluation.ForkJoin
import RacePuzzle.Proofs.Simplification.Minimality
import RacePuzzle.Proofs.Evaluation.Wakeups
import RacePuzzle.Proofs.Evaluation.Instants
import RacePuzzle.Proofs.Machine.Run
import RacePuzzle.Proofs.Evaluation.Limits
import RacePuzzle.Proofs.Machine.Recast
import RacePuzzle.Proofs.Evaluation.Relabeling
import RacePuzzle.Proofs.Machine.Roster
import RacePuzzle.Proofs.Machine.Casting
import RacePuzzle.Proofs.Machine.Seating
import RacePuzzle.Proofs.Machine.Conceal
import RacePuzzle.Proofs.Machine.Enlisting
import RacePuzzle.Proofs.Program.Silence
import RacePuzzle.Proofs.Time.Due
import RacePuzzle.Proofs.Evaluation.Backstage
import RacePuzzle.Proofs.Evaluation.Onstage
import RacePuzzle.Proofs.Evaluation.Noninterference
import RacePuzzle.Proofs.Generation.Growth
import RacePuzzle.Proofs.Generation.Puzzle
import RacePuzzle.Proofs.Program.Texts
import RacePuzzle.Proofs.Time.Pace
import RacePuzzle.Proofs.Machine.Pace
import RacePuzzle.Proofs.Evaluation.Course
import RacePuzzle.Proofs.Evaluation.Variation
import RacePuzzle.Proofs.Evaluation.TimeScaling
import RacePuzzle.Proofs.Program.Reading
import RacePuzzle.Proofs.Evaluation.Display
import RacePuzzle.Proofs.Evaluation.Tally
import RacePuzzle.Proofs.Generation.Texts
import RacePuzzle.Proofs.Generation.Separation
import RacePuzzle.Proofs.Time.PlainQueue
import RacePuzzle.Proofs.Machine.Reach
import RacePuzzle.Proofs.Evaluation.ProgramOrder
import RacePuzzle.Proofs.Evaluation.Enclosing
import RacePuzzle.Proofs.Time.Fates
import RacePuzzle.Proofs.Machine.Queueing
import RacePuzzle.Proofs.Machine.Turns
import RacePuzzle.Proofs.Machine.Elementary
import RacePuzzle.Proofs.Machine.SignalWaits
import RacePuzzle.Proofs.Evaluation.Conduct
import RacePuzzle.Proofs.Evaluation.Stirring
import RacePuzzle.Proofs.Evaluation.Alarms
import RacePuzzle.Proofs.Evaluation.SameInstant
import RacePuzzle.Proofs.Program.Validity
import RacePuzzle.Proofs.Program.LaterSlots
import RacePuzzle.Proofs.Generation.SplitMix
import RacePuzzle.Proofs.Program.Splicing
import RacePuzzle.Proofs.Generation.Rewriting
import RacePuzzle.Proofs.Generation.NameBook
import RacePuzzle.Proofs.Evaluation.Narration
import RacePuzzle.Proofs.Generation.Narratives
