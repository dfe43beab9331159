import RacePuzzle.Program.Validity
import RacePuzzle.Simplification.Handles
import RacePuzzle.Simplification.Redundancy

/-! Simplification: the reductions run in turn until none of them changes the program. -/
namespace RacePuzzle

/-- A reduction that draws new ids and may find that it has broken a rule of programs. -/
abbrev Checked := ExceptT Violation Fresh

namespace Statement

def reductions : List (Statement → Fresh Statement) :=
  [fun t => return t.reduceBlocks, fun t => return t.reduceLeaves,
    reconcileUsages, breakInfiniteWaits]

/-- Runs one reduction. A program that it changed must be valid. -/
def runReduction (t : Statement) (reduce : Statement → Fresh Statement) :
    Checked Statement := do
  let next ← (reduce t : Fresh Statement)
  if next = t then return t
  else
    match next.validate with
    | .ok () => return next
    | .error violation => throw violation

def simplifyRound (t : Statement) : Checked Statement :=
  reductions.foldlM runReduction t

/-- Awaited prints and launched handles weigh more than what takes their place. -/
def ownWeight : Statement → Nat
  | .leaf _ (.printAwait _ _) => 2
  | .leaf .. => 1
  | .block _ (.launchJob _) _ | .block _ (.async _ _) _ => 2
  | .block .. => 1

/-- Every round that changes a valid program makes it lighter. -/
def weight (t : Statement) : Nat := (t.nodes.map ownWeight).foldr (· + ·) 0

/-- Runs rounds until one changes nothing, at most as many as given. -/
def settleRounds : Nat → Statement → Checked Statement
  | 0, t => return t
  | rounds + 1, t => do
    let next ← t.simplifyRound
    if next = t then return t else settleRounds rounds next

/-- Simplifies until nothing changes. After the first round the program is valid or as it was,
so that its weight bounds the rounds that follow. -/
def simplify (t : Statement) : Checked Statement := do
  let next ← t.simplifyRound
  if next = t then return t else settleRounds next.weight next

end Statement

end RacePuzzle
