import RacePuzzle.Program.Statement

/-! Questions about a program tree. Each comes with its counterpart for a whole body. -/
namespace RacePuzzle.Statement

mutual
def size : Statement → Nat
  | .leaf .. => 1
  | .block _ _ body => 1 + bodySize body
def bodySize : List Statement → Nat
  | [] => 0
  | s :: rest => s.size + bodySize rest
end

mutual
def blockCount : Statement → Nat
  | .leaf .. => 0
  | .block _ _ body => 1 + bodyBlockCount body
def bodyBlockCount : List Statement → Nat
  | [] => 0
  | s :: rest => s.blockCount + bodyBlockCount rest
end

mutual
/-- A leaf and an empty block both have depth 1. -/
def depth : Statement → Nat
  | .leaf .. => 1
  | .block _ _ body => 1 + bodyDepth body
def bodyDepth : List Statement → Nat
  | [] => 0
  | s :: rest => max s.depth (bodyDepth rest)
end

mutual
/-- The number of places in the subtree where a statement can be inserted. -/
def slots : Statement → Nat
  | .leaf .. => 0
  | .block _ _ body => body.length + 1 + nestedSlots body
def nestedSlots : List Statement → Nat
  | [] => 0
  | s :: rest => s.slots + nestedSlots rest
end

/-- The places in a body: before each statement, at its end, and inside its blocks. -/
def bodySlots (body : List Statement) : Nat :=
  body.length + 1 + nestedSlots body

mutual
/-- The subtree in pre-order. -/
def nodes : Statement → List Statement
  | .leaf id action => [.leaf id action]
  | .block id head body => .block id head body :: bodyNodes body
def bodyNodes : List Statement → List Statement
  | [] => []
  | s :: rest => s.nodes ++ bodyNodes rest
end

/-- The first node with the id in pre-order. -/
def get? (t : Statement) (id : StatementId) : Option Statement :=
  t.nodes.find? (·.id == id)

def contains (t : Statement) (id : StatementId) : Bool :=
  (t.get? id).isSome

def ids (t : Statement) : List StatementId :=
  t.nodes.map id

def idsOfInnerBlocks (t : Statement) : List StatementId :=
  ((t.nodes.filter isBlock).map id).filter (· != t.id)

def idsOfLeaves (t : Statement) : List StatementId :=
  (t.nodes.filter (!·.isBlock)).map id

def declared (t : Statement) : List String :=
  t.nodes.filterMap declares?

def used (t : Statement) : List String :=
  t.nodes.filterMap uses?

mutual
theorem length_nodes : (t : Statement) → t.nodes.length = t.size
  | .leaf .. => rfl
  | .block _ _ body => by
    simp only [nodes, size, List.length_cons, length_bodyNodes body, Nat.add_comm]
theorem length_bodyNodes : (body : List Statement) → (bodyNodes body).length = bodySize body
  | [] => rfl
  | s :: rest => by
    simp only [bodyNodes, bodySize, List.length_append, length_nodes s, length_bodyNodes rest]
end

theorem one_le_size (t : Statement) : 1 ≤ t.size := by
  cases t with
  | leaf => exact Nat.le_refl 1
  | block _ _ body => exact Nat.le_add_right 1 _

end RacePuzzle.Statement
