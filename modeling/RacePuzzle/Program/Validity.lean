import RacePuzzle.Program.Query
import Std.Data.TreeSet

/-! The structural rules of a program: a coroutine scope at the root, every id and every handle
once, and every usage in the reach of its declaration. -/
namespace RacePuzzle

inductive Violation
  | badRoot (found : String)
  | repeatedId (id : StatementId)
  | repeatedHandle (var : String)
  | unboundUsage (var : String)
  deriving DecidableEq, Repr

def Violation.message : Violation → String
  | .badRoot found => "root statement must be a coroutine scope, found " ++ found
  | .repeatedId id => "statement id #" ++ toString id ++ " appears more than once"
  | .repeatedHandle var => "`" ++ var ++ "` is declared more than once"
  | .unboundUsage var => "usage of `" ++ var ++ "` has no visible declaration"

/-- The first element that occurred before, in `seen` or in the list. -/
def firstRepeat? {α : Type} [Ord α] (seen : Std.TreeSet α) : List α → Option α
  | [] => none
  | a :: rest => if seen.contains a then some a else firstRepeat? (seen.insert a) rest

theorem firstRepeat?_eq_none_iff {α : Type} [Ord α] [Std.TransOrd α] [Std.LawfulEqOrd α]
    {seen : Std.TreeSet α} {l : List α} :
    firstRepeat? seen l = none ↔ l.Nodup ∧ ∀ a ∈ l, a ∉ seen := by
  induction l generalizing seen with
  | nil => simp [firstRepeat?]
  | cons a rest ih =>
    by_cases h : a ∈ seen
    · simp [firstRepeat?, h]
    · simp only [firstRepeat?, Std.TreeSet.contains_iff_mem, h, if_false, ih, List.nodup_cons,
        List.forall_mem_cons, Std.TreeSet.mem_insert, Std.LawfulEqCmp.compare_eq_iff_eq, not_or,
        not_false_eq_true, true_and]
      grind

namespace Statement

mutual
def unbound? (visible : Std.TreeSet String) : Statement → Option String
  | .leaf _ action =>
    match action.uses? with
    | some var => if visible.contains var then none else some var
    | none => none
  | .block _ _ body => bodyUnbound? visible body
/-- A handle is visible to what follows its declaration in the same body. -/
def bodyUnbound? (visible : Std.TreeSet String) : List Statement → Option String
  | [] => none
  | s :: rest =>
    match s.unbound? visible with
    | some var => some var
    | none => bodyUnbound? (s.declares?.elim visible visible.insert) rest
end

/-- The first violation: of the root, then of the ids, the declarations and the usages. -/
def validate (t : Statement) : Except Violation Unit :=
  match t with
  | .block _ .coroutineScope body =>
    match firstRepeat? ∅ t.ids with
    | some id => throw (.repeatedId id)
    | none =>
      match firstRepeat? ∅ t.declared with
      | some var => throw (.repeatedHandle var)
      | none =>
        match bodyUnbound? ∅ body with
        | some var => throw (.unboundUsage var)
        | none => return ()
  | t => throw (.badRoot t.label)

def isValid (t : Statement) : Bool :=
  t.validate.toBool

end Statement

end RacePuzzle
