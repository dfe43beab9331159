import RacePuzzle.Proofs.Evaluation.Tally

/-! How much a run prints. A leaf prints at most once, on the spot or at the end of its wait, so that a
run in which nothing is thrown prints no more than its program has leaves that print. -/
namespace RacePuzzle

def Tariff.printing : Tariff where
  entry s := s.printedText?.toList.length
  leave _ := 0
  exit := 0

theorem Tariff.printing_eq : Tariff.printing = .texts fun _ => true := by
  unfold printing texts
  congr 1
  funext s
  cases s.printedText? <;> rfl

theorem Tariff.sum_printing (l : List Statement) :
    (l.map Tariff.printing.node).sum = l.countP (·.printedText?.isSome) := by
  rw [printing_eq, sum_texts]
  exact List.countP_congr fun s _ => by cases s.printedText? <;> rfl

/-- What is printed at the end of a wait. -/
def ProgramFrame.pendingPrints : ProgramFrame → Nat
  | .awaited .. => 1
  | _ => 0

theorem ProgramFrame.pendingPrints_eq : ProgramFrame.pendingPrints = ProgramFrame.owed fun _ => true := by
  funext frame
  cases frame <;> rfl

namespace Snapshot

variable {t : Statement} {L : Ledger} {s s' : Snapshot}

/-- Prints of the run so far, and those at the end of the waits of its tasks. -/
def output (s : Snapshot) : Nat :=
  (prints s.machine).length + s.total ProgramFrame.pendingPrints

theorem output_eq (s : Snapshot) : s.output = s.tally fun _ => true := by
  rw [output, tally, RacePuzzle.tally, List.countP_true, ProgramFrame.pendingPrints_eq]

/-- A step prints no more than it owes, unless an exception is thrown. -/
theorem output_step_le (h : s.Upheld t L) (hs : Step s s')
    (hok : ∀ {seat ticket frames result}, s.focus = .running seat ticket frames result →
      result = .ok ()) : s'.output ≤ s.output + s.price .printing := by
  rw [output_eq, output_eq, Tariff.printing_eq]
  exact tally_step_le _ h hs (fun _ _ _ _ _ _ _ _ => rfl) fun _ => hok

end Snapshot

end RacePuzzle
