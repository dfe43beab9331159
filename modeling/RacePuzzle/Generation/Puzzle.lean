import RacePuzzle.Generation.Growth
import RacePuzzle.Simplification.Simplify

/-! The making of a puzzle: a program grows to its target size and is simplified, and this is
repeated from what is left until nothing of it can be simplified away. -/
namespace RacePuzzle

structure PuzzleConfig where
  /-- The exact size of the program, its root included. -/
  target : Nat
  ingredients : List Ingredient
  seed : UInt64
  maxRounds : Nat
  /-- Leave no two prints at the same instant. -/
  separate : Bool

namespace PuzzleConfig

def default : PuzzleConfig := ⟨10, Difficulty.simple.ingredients, 0, 500, false⟩

def ofDifficulty (difficulty : Difficulty) (target : Nat) (seed : UInt64) : PuzzleConfig :=
  { default with target := target, ingredients := difficulty.ingredients, seed := seed }

def check (config : PuzzleConfig) : Except ConfigFault Unit :=
  if config.target < 2 then throw (.targetTooSmall config.target)
  else if config.ingredients.isEmpty then throw .noIngredients
  else if config.maxRounds = 0 then throw .noRounds
  else return ()

end PuzzleConfig

structure Puzzle where
  program : Statement
  expected : Evaluation
  /-- The number of rounds that it took. -/
  rounds : Nat

/-- The first statement in pre-order that prints the text, awaited or not. -/
def Statement.printOf? (t : Statement) (text : String) : Option Statement :=
  t.nodes.find? fun s => s.printedText? = some text

/-- The print to remove for the first two neighbouring events at one instant: the second one's, or
else the first one's. -/
def Statement.simultaneousPrint? (t : Statement) : List TimedPrint → Option Statement
  | first :: second :: rest =>
    if first.time = second.time then
      t.printOf? second.value <|> t.printOf? first.value <|>
        t.simultaneousPrint? (second :: rest)
    else t.simultaneousPrint? (second :: rest)
  | _ => none

def Statement.separatePrints (t : Statement) : Statement :=
  match t.simultaneousPrint? t.evaluate.events with
  | some print => t.remove print.id
  | none => t

namespace Generation

def simplify (t : Statement) : Generation Statement := do
  let supply ← get
  let (result, nextId) := t.simplify.run supply.nextId
  set { supply with nextId := nextId }
  match result with
  | .ok simplified => return simplified
  | .error violation => throw (.broken violation)

/-- One round: the program grows to its target size and is simplified. -/
def playRound (config : PuzzleConfig) (t : Statement) : Generation Statement := do
  modify (·.renewFor t)
  let simplified ← simplify (← grow t config.target)
  return if config.separate then simplified.separatePrints else simplified

/-- Plays rounds until a program keeps its target size; `played` of them are over. -/
def playRounds (config : PuzzleConfig) (played : Nat) : Nat → Statement → Generation Puzzle
  | 0, _ => throw (.unsettled played)
  | rounds + 1, t => do
    let simplified ← playRound config t
    if config.target ≤ simplified.size then
      return ⟨simplified, simplified.evaluate, played + 1⟩
    else playRounds config (played + 1) rounds simplified

end Generation

/-- Makes a puzzle. The ids of its statements are `firstId` and later ones. -/
def Puzzle.make (config : PuzzleConfig) (firstId : StatementId) :
    Except GenerationFault Puzzle := do
  config.check.mapError .config
  let play : Generation Puzzle := do
    Generation.playRounds config 0 config.maxRounds (← Generation.seedling config.target)
  (play.run (.ofSeed config.ingredients config.seed firstId)).1

end RacePuzzle
