import RacePuzzle.Program.ExceptionKind

/-! Programs as trees of statements. Every statement carries an id, so that two statements of
equal content stay apart when one of them is looked up, moved or removed. -/
namespace RacePuzzle

abbrev StatementId := Nat

/-- What a statement without a body does. -/
inductive Action
  | delay (time : Nat)
  | print (text : String)
  | throwException (kind : ExceptionKind)
  /-- A bare handle, which nothing but `completeJob` or `cancel` completes. -/
  | job (var : String)
  | join (var : String)
  | cancel (var : String)
  /-- Prints what the handle's computation gives; `text` is printed for any other handle. -/
  | printAwait (var text : String)
  | completeJob (var : String)
  deriving DecidableEq, Repr

/-- What a statement with a body does with it. -/
inductive Head
  | launch
  | scopeLaunch
  | coroutineScope
  | supervisorScope
  | launchJob (var : String)
  | async (var result : String)
  | tryCatch (catches : ExceptionKind)
  deriving DecidableEq, Repr

inductive Statement
  | leaf (id : StatementId) (action : Action)
  | block (id : StatementId) (head : Head) (body : List Statement)
  deriving Repr

namespace Action

def declares? : Action → Option String
  | .job var => some var
  | _ => none

def uses? : Action → Option String
  | .join var | .cancel var | .printAwait var _ | .completeJob var => some var
  | _ => none

def label : Action → String
  | .delay _ => "Delay"
  | .print _ => "Print"
  | .throwException _ => "ThrowException"
  | .job _ => "Job"
  | .join _ => "Join"
  | .cancel _ => "Cancel"
  | .printAwait _ _ => "PrintAwait"
  | .completeJob _ => "CompleteJob"

end Action

namespace Head

def declares? : Head → Option String
  | .launchJob var | .async var _ => some var
  | _ => none

def label : Head → String
  | .launch => "Launch"
  | .scopeLaunch => "ScopeLaunch"
  | .coroutineScope => "CoroutineScope"
  | .supervisorScope => "SupervisorScope"
  | .launchJob _ => "LaunchJob"
  | .async _ _ => "Async"
  | .tryCatch _ => "TryCatch"

end Head

namespace Statement

mutual
def decEq : (s t : Statement) → Decidable (s = t)
  | .leaf i a, .leaf j b =>
    if h : i = j ∧ a = b then isTrue (by rw [h.1, h.2])
    else isFalse fun e => h (by injection e; constructor <;> assumption)
  | .block i h body, .block j k body' =>
    if hd : i = j ∧ h = k then
      match decEqBody body body' with
      | isTrue hb => isTrue (by rw [hd.1, hd.2, hb])
      | isFalse hb => isFalse fun e => hb (by injection e)
    else isFalse fun e => hd (by injection e; constructor <;> assumption)
  | .leaf .., .block .. => isFalse nofun
  | .block .., .leaf .. => isFalse nofun
def decEqBody : (b c : List Statement) → Decidable (b = c)
  | [], [] => isTrue rfl
  | s :: b, t :: c =>
    match decEq s t with
    | isTrue hs =>
      match decEqBody b c with
      | isTrue hb => isTrue (by rw [hs, hb])
      | isFalse hb => isFalse fun e => hb (by injection e)
    | isFalse hs => isFalse fun e => hs (by injection e)
  | [], _ :: _ => isFalse nofun
  | _ :: _, [] => isFalse nofun
end

instance : DecidableEq Statement := decEq

def id : Statement → StatementId
  | .leaf id _ | .block id _ _ => id

/-- The children of a block. A leaf has none. -/
def body : Statement → List Statement
  | .leaf .. => []
  | .block _ _ body => body

def isBlock : Statement → Bool
  | .leaf .. => false
  | .block .. => true

def setBody (s : Statement) (body : List Statement) : Statement :=
  match s with
  | .leaf id action => .leaf id action
  | .block id head _ => .block id head body

def declares? : Statement → Option String
  | .leaf _ action => action.declares?
  | .block _ head _ => head.declares?

def uses? : Statement → Option String
  | .leaf _ action => action.uses?
  | .block .. => none

def label : Statement → String
  | .leaf _ action => action.label
  | .block _ head _ => head.label

def isPrint : Statement → Bool
  | .leaf _ (.print _) => true
  | _ => false

def isDelay : Statement → Bool
  | .leaf _ (.delay _) => true
  | _ => false

/-- The text of a print, awaited or not. -/
def printedText? : Statement → Option String
  | .leaf _ (.print text) | .leaf _ (.printAwait _ text) => some text
  | _ => none

@[simp] theorem id_setBody (s : Statement) (body : List Statement) :
    (s.setBody body).id = s.id := by
  cases s <;> rfl

@[simp] theorem setBody_body (s : Statement) : s.setBody s.body = s := by
  cases s <;> rfl

end Statement

end RacePuzzle
