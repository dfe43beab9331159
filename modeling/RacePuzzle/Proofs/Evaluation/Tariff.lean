import RacePuzzle.Proofs.Evaluation.Turnover
import Mathlib.Algebra.Order.Ring.Nat

/-! What a run can cost. A tariff puts a price on the steps of a program, summed over the code in the
ordered semiring of natural numbers; what the code that is left will cost goes down by the price of
every step. -/
namespace RacePuzzle

structure Tariff where
  /-- The beginning of a statement. -/
  entry : Statement → Nat
  /-- The end of a statement, if it is not an exception. -/
  leave : StatementId → Nat
  /-- The end of a job's own code. -/
  exit : Nat

namespace Tariff

/-- A statement without those inside it. -/
def node (p : Tariff) : Statement → Nat
  | .leaf id action => p.entry (.leaf id action) + p.leave id
  | .block id head inner =>
    p.entry (.block id head inner) + p.leave id + if head.makesJob then p.exit else 0

def body (p : Tariff) (rest : List Statement) : Nat := ((Statement.bodyNodes rest).map p.node).sum

def frame (p : Tariff) : ProgramFrame → Nat
  | .rest _ rest => p.body rest
  | .leave id => p.leave id
  | .close _ => p.exit
  | _ => 0

def price (p : Tariff) : List ProgramFrame → Completion → Nat
  | .rest _ (s :: _) :: _, .ok () => p.entry s
  | .leave id :: _, .ok () => p.leave id
  | .close _ :: _, _ => p.exit
  | _, _ => 0

variable {p : Tariff}

theorem body_leaf (id : StatementId) (action : Action) (rest : List Statement) :
    p.body (.leaf id action :: rest) = p.entry (.leaf id action) + p.leave id + p.body rest := by
  simp [body, Statement.bodyNodes, Statement.nodes, node]

theorem body_block (id : StatementId) (head : Head) (inner rest : List Statement) :
    p.body (.block id head inner :: rest) = p.entry (.block id head inner) + p.leave id +
      (if head.makesJob then p.exit else 0) + p.body inner + p.body rest := by
  simp [body, Statement.bodyNodes, Statement.nodes, node, Nat.add_assoc]

theorem body_singleton (t : Statement) : p.body [t] = (t.nodes.map p.node).sum := by
  simp [body, Statement.bodyNodes]

end Tariff

/-- The frames that a step leaves cost less than those before it, by the price of the step. -/
theorem Moves.pays {frames frames' started : List ProgramFrame} {result : Completion}
    (h : Moves frames result frames' started) (p : Tariff) :
    framesWork p.frame frames' + framesWork p.frame started + p.price frames result ≤
      framesWork p.frame frames := by
  cases h with
  | @pass frame _ kind _ =>
    have hprice : p.price (frame :: frames') (.error kind) ≤ p.frame frame := by
      unfold Tariff.price
      split
      · next h => cases h
      · next h => cases h
      · next h =>
        cases h
        exact Nat.le_refl _
      · exact Nat.zero_le _
    rw [framesWork_cons, framesWork_nil]
    omega
  | bodyEnd => simp [Tariff.price]
  | @frameEnd frame _ _ hframe =>
    have hprice : p.price (frame :: frames') result ≤ p.frame frame := by
      unfold Tariff.price
      split
      · next h =>
        cases h
        exact absurd rfl (hframe _ _)
      · next h =>
        cases h
        exact Nat.le_refl _
      · next h =>
        cases h
        exact Nat.le_refl _
      · exact Nat.zero_le _
    rw [framesWork_cons, framesWork_nil]
    omega
  | act =>
    simp only [framesWork_cons, framesWork_nil, Tariff.frame, Tariff.price, Tariff.body_leaf]
    omega
  | await =>
    simp only [framesWork_cons, framesWork_nil, Tariff.frame, Tariff.price, Tariff.body_leaf]
    omega
  | launch hj =>
    simp only [framesWork_cons, framesWork_nil, Tariff.frame, Tariff.price, Tariff.body_block, hj,
      if_true]
    omega
  | scope hj =>
    simp only [framesWork_cons, framesWork_nil, Tariff.frame, Tariff.price, Tariff.body_block, hj,
      if_true]
    omega
  | tryCatch =>
    simp only [framesWork_cons, framesWork_nil, Tariff.frame, Tariff.price, Tariff.body_block]
    omega
  | close =>
    simp only [framesWork_cons, framesWork_nil, Tariff.frame, Tariff.price]
    omega

namespace Snapshot

def cost (p : Tariff) (s : Snapshot) : Nat := s.total p.frame

def price (p : Tariff) (s : Snapshot) : Nat :=
  match s.focus with
  | .idle => 0
  | .running _ _ frames result => p.price frames result

variable {t : Statement} {L : Ledger} {s s' : Snapshot}

/-- Every step lowers what the code that is left will cost by its price. -/
theorem cost_step (h : s.Upheld t L) (hs : Step s s') (p : Tariff) :
    s'.cost p + s.price p ≤ s.cost p := by
  rcases trades_step h hs with ⟨hf, htotal⟩ | ⟨hf, hm, htotal⟩
  · have hprice : s.price p = 0 := by
      unfold price
      split
      · rfl
      · next hrunning =>
        rw [hrunning] at hf
        obtain rfl : _ = [] := hf
        rfl
    rw [hprice, cost, htotal p.frame]
    exact Nat.le_refl _
  · have hpays := hm.pays p
    have := htotal p.frame
    simp only [price, hf, cost]
    omega

theorem cost_initial (t : Statement) (p : Tariff) :
    t.initial.cost p = (t.nodes.map p.node).sum := by
  have hcost : t.initial.cost p = framesWork p.frame [.rest 0 [t], .program] + 0 + 0 := rfl
  rw [hcost, ← p.body_singleton]
  rfl

theorem cost_le_of_history (h : History t L s) (p : Tariff) :
    s.cost p ≤ (t.nodes.map p.node).sum := by
  induction h with
  | start => exact Nat.le_of_eq (cost_initial t p)
  | next h hs _ _ ih =>
    have := cost_step h.upheld hs p
    omega

end Snapshot

end RacePuzzle
