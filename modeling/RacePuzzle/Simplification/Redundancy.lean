import RacePuzzle.Evaluation.Evaluate
import RacePuzzle.Program.Edit

/-! Statements that do not matter: blocks and leaves without which the evaluation of the program
stays the same. -/
namespace RacePuzzle.Statement

/-- Removes statements, each with the usages of the handle that it binds. -/
def excise (t : Statement) : List StatementId → Statement
  | [] => t
  | id :: rest =>
    match t.get? id with
    | none => t.excise rest
    | some removed => ((t.remove id).dropUsages removed).excise rest

def dissolve (t : Statement) (id : StatementId) : Statement :=
  match t.get? id with
  | none => t
  | some inlined => (t.inlineBlock id).dropUsages inlined

/-- Puts the body of a block in its place, or else drops the block, if the evaluation stays
`baseline`. -/
def reduceBlock (baseline : Evaluation) (current : Statement) (id : StatementId) : Statement :=
  if current.contains id then
    let inlined := current.dissolve id
    if inlined.evaluate = baseline then inlined
    else
      let dropped := current.excise [id]
      if dropped.evaluate = baseline then dropped else current
  else current

def reduceBlocks (t : Statement) : Statement :=
  t.idsOfInnerBlocks.foldl (reduceBlock t.evaluate) t

/-- Whether prints and delays take turns. -/
def alternate (a b c d : Statement) : Bool :=
  a.isPrint && b.isDelay && c.isPrint && d.isDelay ||
    a.isDelay && b.isPrint && c.isDelay && d.isPrint

/-- The last two of any four neighbours in a body that alternate. -/
def alternatingTails : List Statement → List (List StatementId)
  | a :: b :: c :: d :: rest =>
    let tails := alternatingTails (b :: c :: d :: rest)
    if alternate a b c d then [c.id, d.id] :: tails else tails
  | _ => []

/-- Drops statements that are all there, if the evaluation stays `baseline`. -/
def reduceLeaf (baseline : Evaluation) (current : Statement) (ids : List StatementId) :
    Statement :=
  if ids.all current.contains then
    let candidate := current.excise ids
    if candidate.evaluate = baseline then candidate else current
  else current

/-- Tries the alternating pairs first, then every single leaf. -/
def reduceLeaves (t : Statement) : Statement :=
  let pairs := t.nodes.flatMap fun s => alternatingTails s.body
  let leaves := t.idsOfLeaves.map fun id => [id]
  (pairs ++ leaves).foldl (reduceLeaf t.evaluate) t

end RacePuzzle.Statement
