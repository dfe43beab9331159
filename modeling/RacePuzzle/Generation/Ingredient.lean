/-! What can be added to a program at random, and the selections of it that make puzzles of a
difficulty. -/
namespace RacePuzzle

/-- Some stand for a declaration together with its usages. -/
inductive Ingredient
  | delay
  | print
  | launch
  | asyncAwait
  | coroutineScope
  | launchJoin
  | launchCancel
  | scopeLaunch
  | jobCompleteJoin
  | throwException
  | tryCatch
  | supervisorScope
  deriving DecidableEq, Repr

namespace Ingredient

def isBlock : Ingredient → Bool
  | .launch | .asyncAwait | .coroutineScope | .launchJoin | .launchCancel | .scopeLaunch
  | .tryCatch | .supervisorScope => true
  | .delay | .print | .jobCompleteJoin | .throwException => false

def usageTotal : Ingredient → Nat
  | .asyncAwait | .launchJoin | .launchCancel => 1
  | .jobCompleteJoin => 2
  | _ => 0

def hasUsages (i : Ingredient) : Bool := 0 < i.usageTotal

/-- The statements that come with it at least: itself, one in its body and its usages. -/
def leastSize (i : Ingredient) : Nat :=
  1 + i.isBlock.toNat + i.usageTotal

theorem two_le_leastSize {i : Ingredient} (h : i.isBlock) :
    2 ≤ i.leastSize := by
  simp only [leastSize, h, Bool.toNat_true]
  omega

end Ingredient

inductive Difficulty
  | simple
  | withSynchronization
  | withExceptions
  | withSynchronizationAndExceptions
  deriving DecidableEq, Repr

namespace Difficulty

def all : List Difficulty :=
  [.simple, .withSynchronization, .withExceptions, .withSynchronizationAndExceptions]

/-- One that stands there more than once is picked more often. -/
def ingredients : Difficulty → List Ingredient
  | .simple => [.delay, .print, .launch, .asyncAwait, .asyncAwait, .asyncAwait]
  | .withSynchronization =>
    [.delay, .print, .launchJoin, .scopeLaunch, .asyncAwait, .coroutineScope, .jobCompleteJoin]
  | .withExceptions =>
    [.delay, .delay, .print, .print, .launch, .scopeLaunch, .asyncAwait, .asyncAwait,
      .coroutineScope, .throwException, .tryCatch, .supervisorScope, .supervisorScope]
  | .withSynchronizationAndExceptions =>
    [.delay, .print, .asyncAwait, .coroutineScope, .launchJoin, .launchCancel, .jobCompleteJoin,
      .scopeLaunch, .throwException, .tryCatch, .supervisorScope]

def name : Difficulty → String
  | .simple => "simple"
  | .withSynchronization => "sync"
  | .withExceptions => "exceptions"
  | .withSynchronizationAndExceptions => "sync-exceptions"

def ofName? (name : String) : Option Difficulty :=
  all.find? (·.name == name)

end Difficulty

end RacePuzzle
