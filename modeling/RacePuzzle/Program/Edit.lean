import RacePuzzle.Program.Query

/-! Edits of a program tree. Each gives a new tree in which the statements that it does not touch
keep their ids. -/
namespace RacePuzzle

/-- A supply of ids that no statement carries yet: the state is the next one. -/
abbrev Fresh := StateM StatementId

namespace Fresh

def id : Fresh StatementId :=
  modifyGet fun next => (next, next + 1)

end Fresh

/-- What becomes of one statement below the root. -/
inductive Edit
  | drop
  /-- The new statement stands for the whole subtree and is not edited any further. -/
  | replace (new : Statement)
  /-- The statement's own body, edited in turn, gets this id and head. -/
  | descend (id : StatementId) (head : Head)

namespace Edit

def keep : Statement → Edit
  | .leaf id action => .replace (.leaf id action)
  | .block id head _ => .descend id head

end Edit

namespace Statement

mutual
/-- Puts `new` in the place of the descendant `id`. In each list the first statement with the id
is replaced; later ones in the list and in its later blocks are dropped. -/
def splice (id : StatementId) (new : List Statement) : Statement → Statement
  | .leaf i action => .leaf i action
  | .block i head body => .block i head (spliceBody id new body)
def spliceBody (id : StatementId) (new : List Statement) : List Statement → List Statement
  | [] => []
  | s :: rest =>
    if s.id = id then new ++ spliceBody id [] rest
    else s.splice id new :: spliceBody id new rest
end

def remove (t : Statement) (id : StatementId) : Statement :=
  t.splice id []

/-- Puts the body of the block `id` in its place. -/
def inlineBlock (t : Statement) (id : StatementId) : Statement :=
  match t.get? id with
  | some (.block _ _ body) => t.splice id body
  | _ => t

mutual
def editNodeM {m : Type → Type} [Monad m] (f : Statement → m Edit) :
    Statement → m (Option Statement)
  | .leaf id action => do
    match ← f (.leaf id action) with
    | .drop => return none
    | .replace new => return some new
    | .descend id head => return some (.block id head [])
  | .block id head body => do
    match ← f (.block id head body) with
    | .drop => return none
    | .replace new => return some new
    | .descend id head => return some (.block id head (← editBodyM f body))
def editBodyM {m : Type → Type} [Monad m] (f : Statement → m Edit) :
    List Statement → m (List Statement)
  | [] => return []
  | s :: rest => do
    let new ← editNodeM f s
    return new.toList ++ (← editBodyM f rest)
end

/-- Asks `f` about every statement below the root, a block before its body. -/
def editM {m : Type → Type} [Monad m] (f : Statement → m Edit) (t : Statement) :
    m Statement := do
  return t.setBody (← editBodyM f t.body)

def edit (f : Statement → Edit) (t : Statement) : Statement :=
  Id.run (t.editM fun s => pure (f s))

/-- What becomes of a usage when its handle goes: an awaited print stays as a plain one. -/
def Edit.ofDetachedUsage : Statement → Edit
  | .leaf id (.printAwait _ text) => .replace (.leaf id (.print text))
  | _ => .drop

/-- Drops every usage of the handle that `declaration` binds. -/
def dropUsages (t declaration : Statement) : Statement :=
  match declaration.declares? with
  | none => t
  | some var => t.edit fun s =>
    if s.uses? = some var then Edit.ofDetachedUsage s else .keep s

/-- Removes a handle altogether: its usages go, and so do the statements that bind it, except
that a launched job stays as a launch without a handle. -/
def eraseHandle (t : Statement) (var : String) : Fresh Statement :=
  t.editM fun s =>
    if s.declares? = some var then
      match s with
      | .block _ (.launchJob _) _ => do return .descend (← Fresh.id) .launch
      | _ => return .drop
    else if s.uses? = some var then return .drop
    else return .keep s

/-- Edits by label: drops, turns blocks into coroutine scopes, and puts other leaves as
launches around a delay of seven. A label counts for the first of these that names it. -/
def editByLabel (t : Statement) (drop scope launch : List String) : Fresh Statement :=
  t.editM fun s =>
    if s.label ∈ drop then return .drop
    else
      match s with
      | .block id head _ =>
        return .descend id (if head.label ∈ scope then .coroutineScope else head)
      | .leaf id action =>
        if action.label ∈ launch then do
          let delay := Statement.leaf (← Fresh.id) (.delay 7)
          let body := if delay.label ∈ drop then [] else [delay]
          return .replace (.block id .launch body)
        else return .keep (.leaf id action)

end Statement

end RacePuzzle
