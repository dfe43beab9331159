import RacePuzzle.Generation.Ingredient
import RacePuzzle.Generation.Names
import RacePuzzle.Generation.SplitMix
import RacePuzzle.Program.Validity

/-! What random programs are made from: ids, names and random numbers, each handed out once. -/
namespace RacePuzzle

inductive ConfigFault
  | targetTooSmall (target : Nat)
  | noIngredients
  | noRounds
  deriving DecidableEq, Repr

def ConfigFault.message : ConfigFault → String
  | .targetTooSmall target => "target must be at least 2 statements, got " ++ toString target
  | .noIngredients => "no statement kinds allowed"
  | .noRounds => "max_rounds must be positive"

inductive GenerationFault
  | config (fault : ConfigFault)
  | exhausted (pool : Pool)
  | unsettled (rounds : Nat)
  /-- A program came out that breaks a rule of programs. -/
  | broken (violation : Violation)
  deriving DecidableEq, Repr

def GenerationFault.message : GenerationFault → String
  | .config fault => "invalid session configuration: " ++ fault.message
  | .exhausted pool => "value pool exhausted: " ++ pool.name
  | .unsettled rounds => "generation did not converge after " ++ toString rounds ++ " rounds"
  | .broken violation => violation.message

structure Supply where
  random : SplitMix
  names : Names
  /-- What may be added to a program. -/
  ingredients : List Ingredient
  nextId : StatementId

/-- What was drawn stays drawn when generation fails. -/
abbrev Generation := ExceptT GenerationFault (StateM Supply)

namespace Supply

def ofSeed (ingredients : List Ingredient) (seed : UInt64) (nextId : StatementId) : Supply :=
  ⟨⟨seed⟩, .full, ingredients, nextId⟩

/-- Makes the names available again that a program does not use. -/
def renewFor (supply : Supply) (t : Statement) : Supply :=
  { supply with names := supply.names.renewFor t }

end Supply

namespace Generation

def freshId : Generation StatementId :=
  modifyGet fun supply => (supply.nextId, { supply with nextId := supply.nextId + 1 })

def freshLeaf (action : Action) : Generation Statement :=
  return .leaf (← freshId) action

def freshBlock (head : Head) (body : List Statement) : Generation Statement :=
  return .block (← freshId) head body

def below (n : Nat) : Generation Nat :=
  modifyGet fun supply =>
    let (i, random) := supply.random.below n
    (i, { supply with random := random })

def draw (pool : Pool) : Generation String := do
  let supply ← get
  match supply.names.draw? pool with
  | none => throw (.exhausted pool)
  | some (value, names) =>
    set { supply with names := names }
    return value

def pickDelay : Generation Action :=
  modifyGet fun supply =>
    let (seconds, random) := supply.random.range 1 3
    (.delay (seconds * 1000), { supply with random := random })

def pickException : Generation ExceptionKind :=
  modifyGet fun supply =>
    let (kind, random) := supply.random.pick ExceptionKind.all
    (kind.getD .generic, { supply with random := random })

end Generation

end RacePuzzle
