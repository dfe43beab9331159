/-! The kinds of exception that a simulated program throws and catches. -/
namespace RacePuzzle

inductive ExceptionKind
  | cancellation
  | generic
  | custom
  deriving DecidableEq, Repr, Inhabited

/-- How a piece of code ends: normally, or with the exception that left it. -/
abbrev Completion := Except ExceptionKind Unit

namespace ExceptionKind

def all : List ExceptionKind := [.cancellation, .generic, .custom]

/-- `generic` is the common supertype of every kind. -/
def catches (handler thrown : ExceptionKind) : Bool :=
  handler == .generic || handler == thrown

def name : ExceptionKind → String
  | .cancellation => "Cancellation"
  | .generic => "Generic"
  | .custom => "Custom"

/-- The class that stands for the kind in a program's source text. -/
def sourceName : ExceptionKind → String
  | .cancellation => "CancellationException"
  | .generic => "Exception"
  | .custom => "MyException"

def ofName? (name : String) : Option ExceptionKind :=
  all.find? (·.name == name)

end ExceptionKind

end RacePuzzle
