import RacePuzzle.Generation.Supply
import RacePuzzle.Program.Insertion

/-! Random programs of an exact size. Every pick is within the number of statements that are
left, so that a growing program never gets too large. -/
namespace RacePuzzle

/-- An ingredient that leaves room for the body it needs. -/
abbrev FittingIngredient (left : Nat) :=
  { kind : Ingredient // kind.isBlock → kind.leastSize ≤ left }

namespace Generation

/-- Whether an ingredient can be picked with `left` statements left. The first statement of a body
is neither a print nor one with usages. -/
def fits (left : Nat) (firstInBody : Bool) (kind : Ingredient) : Bool :=
  kind.leastSize ≤ left && (!firstInBody || !kind.hasUsages && kind != .print)

/-- Picks among the ingredients that fit; a print if there are none. -/
def pickIngredient (left : Nat) (firstInBody : Bool) : Generation (FittingIngredient left) :=
  modifyGet fun supply =>
    match h : supply.random.pick (supply.ingredients.filter (fits left firstInBody)) with
    | (none, random) => (⟨.print, nofun⟩, { supply with random := random })
    | (some kind, random) =>
      have hfits : fits left firstInBody kind :=
        (List.mem_filter.mp (SplitMix.mem_of_pick h)).2
      have hle : kind.isBlock → kind.leastSize ≤ left := fun _ => by
        simp only [fits, Bool.and_eq_true, decide_eq_true_eq] at hfits
        exact hfits.1
      (⟨kind, hle⟩, { supply with random := random })

/-- The declaration that an ingredient stands for. `body` makes its body, if it has one. -/
def declaration (body : Generation (List Statement)) : Ingredient → Generation Statement
  | .delay => do freshLeaf (← pickDelay)
  | .print => do freshLeaf (.print (← draw .strings))
  | .throwException => do freshLeaf (.throwException (← pickException))
  | .jobCompleteJoin => do freshLeaf (.job (← draw .jobNames))
  | .launch => do freshBlock .launch (← body)
  | .scopeLaunch => do freshBlock .scopeLaunch (← body)
  | .coroutineScope => do freshBlock .coroutineScope (← body)
  | .supervisorScope => do freshBlock .supervisorScope (← body)
  | .tryCatch => do
    let catches ← pickException
    freshBlock (.tryCatch catches) (← body)
  | .launchJoin | .launchCancel => do
    let var ← draw .jobNames
    freshBlock (.launchJob var) (← body)
  | .asyncAwait => do
    let var ← draw .variableNames
    let result ← draw .strings
    freshBlock (.async var result) (← body)

def newBody (left : Nat) : Generation (List Statement) := do
  let ⟨kind, hfit⟩ ← pickIngredient left true
  let inner : Generation (List Statement) :=
    if hb : kind.isBlock then
      have := hfit hb
      have := Ingredient.two_le_leastSize hb
      newBody (left - kind.leastSize)
    else return []
  return [← declaration inner kind]
termination_by left

/-- The declaration of an ingredient, with `left` statements for it, its body and its usages. -/
def newDeclaration (kind : Ingredient) (left : Nat) : Generation Statement :=
  declaration (newBody (left - kind.leastSize)) kind

def usageActions (kind : Ingredient) (declared : Statement) : List Action :=
  match declared.declares? with
  | none => []
  | some var =>
    match kind, declared with
    | .asyncAwait, .block _ (.async _ result) _ => [.printAwait var result]
    | .launchJoin, _ => [.join var]
    | .launchCancel, _ => [.cancel var]
    | .jobCompleteJoin, _ => [.join var, .completeJob var]
    | _, _ => []

def newUsages (kind : Ingredient) (declared : Statement) : Generation (List Statement) :=
  (usageActions kind declared).mapM freshLeaf

def seedling (target : Nat) : Generation Statement := do
  freshBlock .coroutineScope (← newBody (target - 1))

def insertAnywhere (t new : Statement) : Generation Statement :=
  return t.insertAtPlace (← below t.slots) new

/-- Inserts usages in a row, each at a random place after the one before it. -/
def insertChain (t : Statement) (after : StatementId) : List Statement → Generation Statement
  | [] => return t
  | usage :: rest => do insertChain (← t.insertLaterM after usage below) usage.id rest

/-- Adds one random statement with its usages, `left` statements at most. A declaration with more
than one usage goes to the front. -/
def growOnce (t : Statement) (left : Nat) : Generation Statement := do
  let ⟨kind, _⟩ ← pickIngredient left false
  let declared ← newDeclaration kind left
  let usages ← newUsages kind declared
  let placed ← if usages.length ≤ 1 then insertAnywhere t declared
    else pure (t.prepend declared)
  let grown ← insertChain placed declared.id usages
  match grown.validate with
  | .ok () => return grown
  | .error violation => throw (.broken violation)

/-- Every step adds a statement at least. -/
def growSteps (target : Nat) : Nat → Statement → Generation Statement
  | 0, t => return t
  | steps + 1, t => do
    if t.size < target then
      growSteps target steps (← growOnce t (target - t.size))
    else return t

def grow (t : Statement) (target : Nat) : Generation Statement :=
  growSteps target (target - t.size) t

/-- A program of exactly `target` statements. -/
def generate (target : Nat) : Generation Statement := do
  if target < 2 then throw (.config (.targetTooSmall target))
  grow (← seedling target) target

end Generation

end RacePuzzle
