import RacePuzzle.Evaluation.Evaluate
import RacePuzzle.Program.Edit

/-! Handles that cannot stay: usages of handles that are not bound anywhere, handles that are
never used, and bare jobs that a program waits for without end. -/
namespace RacePuzzle.Statement

/-- Drops usages of unbound handles, and binds no handle that is not used. -/
def reconcileUsages (t : Statement) : Fresh Statement :=
  let declared := t.declared
  let used := t.used
  t.editM fun s =>
    if s.uses?.any (· ∉ declared) then return Edit.ofDetachedUsage s
    else if s.declares?.any (· ∉ used) then
      match s with
      | .leaf .. => return .drop
      | .block .. => do return .descend (← Fresh.id) .launch
    else return .keep s

def bareJobs (t : Statement) : List String :=
  t.nodes.filterMap fun s =>
    match s with
    | .leaf _ (.job var) => some var
    | _ => none

def isJoin : Statement → Bool
  | .leaf _ (.join _) => true
  | _ => false

/-- The first handle without which the program does not hang, as the program without it. -/
def withoutOneOf (t : Statement) : List String → Fresh (Option Statement)
  | [] => return none
  | var :: rest => do
    let candidate ← t.eraseHandle var
    if candidate.hangs then t.withoutOneOf rest else return some candidate

def eraseHandles (t : Statement) (vars : List String) : Fresh Statement :=
  vars.foldlM eraseHandle t

/-- Breaks infinite waits: by the removal of one bare job if that is enough, else of all of them,
and if that is not enough of every join. -/
def breakInfiniteWaits (t : Statement) : Fresh Statement := do
  if t.hangs then
    match ← t.withoutOneOf t.bareJobs with
    | some candidate => return candidate
    | none =>
      let current ← t.eraseHandles t.bareJobs
      if current.hangs then return current.edit fun s => if s.isJoin then .drop else .keep s
      else return current
  else return t

end RacePuzzle.Statement
