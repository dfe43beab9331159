import RacePuzzle.Program.Statement

/-! The source text of a program, as the reader of a puzzle sees it. -/
namespace RacePuzzle

/-- What a `try` block prints when it has caught an exception. -/
def handlerText : String := "Got exception"

def sourceLine (depth : Nat) (text : String) : String :=
  String.join (List.replicate depth "    ") ++ text

def openBrace : String := .singleton '{'

def closeBrace : String := .singleton '}'

def stringLiteral (text : String) : String :=
  "\"" ++ text ++ "\""

def Action.source : Action → String
  | .delay time => "delay(" ++ toString time ++ ")"
  | .print text => "println(" ++ stringLiteral text ++ ")"
  | .throwException kind => "throw " ++ kind.sourceName ++ "()"
  | .job var => "val " ++ var ++ " = Job()"
  | .join var => var ++ ".join()"
  | .cancel var => var ++ ".cancel()"
  | .printAwait var _ => "println(" ++ var ++ ".await())"
  | .completeJob var => var ++ ".complete()"

/-- The words before the opening brace of a block. -/
def Head.opening : Head → String
  | .launch => "launch"
  | .scopeLaunch => "backgroundScope.launch"
  | .coroutineScope => "coroutineScope"
  | .supervisorScope => "supervisorScope"
  | .launchJob var => "val " ++ var ++ " = launch"
  | .async var _ => "val " ++ var ++ " = async"
  | .tryCatch _ => "try"

/-- The lines from the end of a block's body to its last brace. -/
def Head.closing (depth : Nat) : Head → List String
  | .async _ result => [sourceLine (depth + 1) (stringLiteral result), sourceLine depth closeBrace]
  | .tryCatch kind =>
    [sourceLine depth (closeBrace ++ " catch (e: " ++ kind.sourceName ++ ") " ++ openBrace),
      sourceLine (depth + 1) ("println(" ++ stringLiteral handlerText ++ ")"),
      sourceLine depth closeBrace]
  | _ => [sourceLine depth closeBrace]

namespace Statement

mutual
def sourceLines (depth : Nat) : Statement → List String
  | .leaf _ action => [sourceLine depth action.source]
  | .block _ head body =>
    sourceLine depth (head.opening ++ " " ++ openBrace) ::
      (bodySourceLines (depth + 1) body ++ head.closing depth)
def bodySourceLines (depth : Nat) : List Statement → List String
  | [] => []
  | s :: rest => s.sourceLines depth ++ bodySourceLines depth rest
end

def source (t : Statement) : String :=
  "\n".intercalate (t.sourceLines 0)

end Statement

end RacePuzzle
