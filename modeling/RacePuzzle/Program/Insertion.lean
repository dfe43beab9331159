import RacePuzzle.Program.Query

/-! Insertion of a statement at a numbered place of a program tree. The places of a body come
first, from its front to its end, then those inside its blocks, block by block. -/
namespace RacePuzzle.Statement

mutual
def insertAt : Statement → Nat → Statement → Statement
  | .leaf id action, _, _ => .leaf id action
  | .block id head body, place, new =>
    if place ≤ body.length then .block id head (body.insertIdx place new)
    else .block id head (insertNested body (place - body.length - 1) new)
termination_by structural t => t
/-- Inserts at a place inside the blocks of a body. -/
def insertNested : List Statement → Nat → Statement → List Statement
  | [], _, _ => []
  | s :: rest, place, new =>
    if place < s.slots then s.insertAt place new :: rest
    else s :: insertNested rest (place - s.slots) new
termination_by structural body => body
end

/-- Inserts into a body; a place past the last one appends. -/
def insertIntoBody (body : List Statement) (place : Nat) (new : Statement) : List Statement :=
  if place ≤ body.length then body.insertIdx place new
  else if place < bodySlots body then insertNested body (place - body.length - 1) new
  else body ++ [new]

/-- Inserts into a block at a place; a place past the last one appends to its body. -/
def insertAtPlace (t : Statement) (place : Nat) (new : Statement) : Statement :=
  t.setBody (insertIntoBody t.body place new)

def prepend (t new : Statement) : Statement :=
  t.setBody (new :: t.body)

def restAfter? (id : StatementId) : List Statement → Option (List Statement)
  | [] => none
  | s :: rest => if s.id = id then some rest else restAfter? id rest

/-- Inserts behind the first statement with the id, at a place of the rest of its body. -/
def insertBehind (id : StatementId) (place : Nat) (new : Statement) :
    List Statement → List Statement
  | [] => []
  | s :: rest =>
    if s.id = id then s :: insertIntoBody rest place new
    else s :: insertBehind id place new rest

mutual
/-- The number of places after the descendant `id`: among its later siblings and inside them.
A body is searched before the blocks in it. -/
def slotsAfter? (id : StatementId) : Statement → Option Nat
  | .leaf .. => none
  | .block _ _ body =>
    match restAfter? id body with
    | some rest => some (bodySlots rest)
    | none => nestedSlotsAfter? id body
def nestedSlotsAfter? (id : StatementId) : List Statement → Option Nat
  | [] => none
  | s :: rest =>
    match s.slotsAfter? id with
    | some n => some n
    | none => nestedSlotsAfter? id rest
end

mutual
def insertLaterAt : Statement → StatementId → Nat → Statement → Statement
  | .leaf i action, _, _, _ => .leaf i action
  | .block i head body, id, place, new =>
    if (restAfter? id body).isSome then .block i head (insertBehind id place new body)
    else .block i head (insertLaterNested body id place new)
termination_by structural t => t
def insertLaterNested : List Statement → StatementId → Nat → Statement → List Statement
  | [], _, _, _ => []
  | s :: rest, id, place, new =>
    if (s.slotsAfter? id).isSome then s.insertLaterAt id place new :: rest
    else s :: insertLaterNested rest id place new
termination_by structural body => body
end

/-- Inserts somewhere after the descendant `id`. `pick n` chooses one of `n` places, and is asked
only where there is a choice. -/
def insertLaterM {m : Type → Type} [Monad m] (t : Statement) (id : StatementId)
    (new : Statement) (pick : Nat → m Nat) : m Statement :=
  match t.slotsAfter? id with
  | none => return t
  | some n => do
    let place ← if n ≤ 1 then pure 0 else pick n
    return t.insertLaterAt id place new

end RacePuzzle.Statement
