import RacePuzzle.Program.Query

/-! Names and texts for new statements. Each pool hands out its values in a fixed order and none
twice; when it is renewed it fills up again, except with the values that are in use. -/
namespace RacePuzzle

inductive Pool
  | variableNames
  | jobNames
  | strings
  deriving DecidableEq, Repr

namespace Pool

def name : Pool → String
  | .variableNames => "variable names"
  | .jobNames => "job names"
  | .strings => "strings"

/-- `stem1`, `stem2` and so on, a thousand of them. -/
def numbered (stem : String) : List String :=
  (List.range 1000).map fun i => stem ++ toString (i + 1)

def letters : List String :=
  ["A", "B", "C", "D", "E", "F", "G", "H", "I", "J", "K", "L", "M", "N", "O", "P", "Q", "R", "S",
    "T", "U", "V", "W", "X", "Y", "Z"]

/-- The values of the pool, in the order in which it hands them out. -/
def stock : Pool → List String
  | .variableNames => numbered "value"
  | .jobNames => numbered "job"
  | .strings => letters ++ numbered "v"

end Pool

structure Names where
  variableNames : List String
  jobNames : List String
  strings : List String
  deriving DecidableEq, Repr

namespace Names

def full : Names := ⟨Pool.variableNames.stock, Pool.jobNames.stock, Pool.strings.stock⟩

def left (names : Names) : Pool → List String
  | .variableNames => names.variableNames
  | .jobNames => names.jobNames
  | .strings => names.strings

def withLeft (names : Names) (values : List String) : Pool → Names
  | .variableNames => { names with variableNames := values }
  | .jobNames => { names with jobNames := values }
  | .strings => { names with strings := values }

/-- The next value of a pool, unless it is exhausted. -/
def draw? (names : Names) (pool : Pool) : Option (String × Names) :=
  match names.left pool with
  | [] => none
  | value :: rest => some (value, names.withLeft rest pool)

def renew (names : Names) (pool : Pool) (used : List String) : Names :=
  names.withLeft (pool.stock.filter (· ∉ used)) pool

end Names

def Statement.valueOf? (pool : Pool) (s : Statement) : Option String :=
  match pool, s with
  | .jobNames, .block _ (.launchJob var) _ => some var
  | .jobNames, .leaf _ (.job var) => some var
  | .variableNames, .block _ (.async var _) _ => some var
  | .strings, .block _ (.async _ result) _ => some result
  | .strings, .leaf _ (.print text) => some text
  | .strings, .leaf _ (.printAwait _ text) => some text
  | _, _ => none

def Statement.valuesOf (t : Statement) (pool : Pool) : List String :=
  t.nodes.filterMap (valueOf? pool)

/-- Renews every pool; the values that a program uses are in use. -/
def Names.renewFor (names : Names) (t : Statement) : Names :=
  [Pool.jobNames, .variableNames, .strings].foldl
    (fun names pool => names.renew pool (t.valuesOf pool)) names

end RacePuzzle
