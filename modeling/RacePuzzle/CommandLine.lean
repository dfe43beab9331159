import RacePuzzle.Generation.Puzzle
import RacePuzzle.Program.Source
import RacePuzzle.Text.Quoted

/-! The command line: its arguments, what it prints, and how it fails. -/
namespace RacePuzzle.CommandLine

inductive NumberFault
  | empty
  | invalidDigit
  | overflow
  deriving DecidableEq, Repr

inductive Fault
  | unknownDifficulty (name : String)
  | unknownArgument (argument : String)
  | number (fault : NumberFault)
  | generation (error : GenerationFault)
  deriving DecidableEq, Repr

def NumberFault.name : NumberFault → String
  | .empty => "Empty"
  | .invalidDigit => "InvalidDigit"
  | .overflow => "PosOverflow"

/-- A fault with one field, as its debug output shows it. -/
def withField (name field value : String) : String :=
  name ++ " " ++ openBrace ++ " " ++ field ++ ": " ++ value ++ " " ++ closeBrace

/-- The fault as the last line of the error output names it. -/
def Fault.describe : Fault → String
  | .unknownDifficulty name => Text.quote ("Unknown difficulty '" ++ name ++ "'")
  | .unknownArgument argument => Text.quote ("Unknown argument '" ++ argument ++ "'")
  | .number fault => withField "ParseIntError" "kind" fault.name
  | .generation (.config fault) => "InvalidConfig(" ++ Text.quote fault.message ++ ")"
  | .generation (.unsettled rounds) => withField "DidNotConverge" "rounds" (toString rounds)
  | .generation (.exhausted .variableNames) => withField "PoolExhausted" "pool" "VariableNames"
  | .generation (.exhausted .jobNames) => withField "PoolExhausted" "pool" "JobNames"
  | .generation (.exhausted .strings) => withField "PoolExhausted" "pool" "Strings"
  | .generation (.broken violation) => Text.quote violation.message

/-- Reads digits from the left. A character that is no digit counts for more than an overflow only
if it comes first. -/
def readDigits (value : Nat) : List Char → Except NumberFault Nat
  | [] => return value
  | c :: rest => do
    if !c.isDigit then throw .invalidDigit
    let value := value * 10 + (c.toNat - '0'.toNat)
    if 2 ^ 64 ≤ value then throw .overflow
    readDigits value rest

/-- Reads a 64-bit number, which may have a plus sign. -/
def readNumber (text : String) : Except NumberFault Nat :=
  match text.toList with
  | [] => throw .empty
  | ['+'] => throw .invalidDigit
  | '+' :: digits => readDigits 0 digits
  | digits => readDigits 0 digits

structure Options where
  difficulty : Difficulty
  statements : Nat
  seed : UInt64
  count : Nat
  separate : Bool

def Options.default : Options := ⟨.simple, 10, 0, 1, false⟩

def usage : List String :=
  ["Coroutine Races - Puzzle Generator",
    "==================================",
    "",
    "Usage:",
    "  cargo run --bin race_demo -- [options]",
    "",
    "Options:",
    "  --difficulty, -d NAME   simple | sync | exceptions | sync-exceptions",
    "  --statements, -n N      program size, root included (default 10)",
    "  --seed, -s N            session seed (default 0)",
    "  --count, -c N           puzzles to generate (default 1)",
    "  --separate              never print two values at the same instant",
    "  --verbose, -v           debug logging on stderr",
    "  --help, -h              show this message"]

inductive Request
  | showUsage
  | generate (options : Options)
  | reject (withUsage : Bool) (fault : Fault)

/-- Reads the value of a numeric option. One that stands last has none and keeps its default. -/
def withNumber (options : Options) (set : Options → Nat → Options) :
    List String → Except Fault (Options × List String)
  | [] => return (options, [])
  | text :: rest =>
    match readNumber text with
    | .ok value => return (set options value, rest)
    | .error fault => throw (.number fault)

theorem length_withNumber {options options' : Options} {set : Options → Nat → Options}
    {arguments rest : List String}
    (h : withNumber options set arguments = .ok (options', rest)) :
    rest.length ≤ arguments.length := by
  cases arguments with
  | nil =>
    simp only [withNumber, pure, Except.pure, Except.ok.injEq, Prod.mk.injEq] at h
    simp [← h.2]
  | cons text tail =>
    simp only [withNumber] at h
    split at h
    · simp only [pure, Except.pure, Except.ok.injEq, Prod.mk.injEq] at h
      simp [← h.2]
    · cases h

def numericOption? : String → Option (Options → Nat → Options)
  | "--statements" | "-n" => some fun options n => { options with statements := n }
  | "--seed" | "-s" => some fun options n => { options with seed := UInt64.ofNat n }
  | "--count" | "-c" => some fun options n => { options with count := n }
  | _ => none

/-- Reads the arguments from the left, up to the first one that decides. -/
def readArguments (options : Options) (arguments : List String) : Request :=
  match arguments with
  | [] => .generate options
  | argument :: rest =>
    match numericOption? argument with
    | some set =>
      match h : withNumber options set rest with
      | .error fault => .reject false fault
      | .ok (options, rest') =>
        have := length_withNumber h
        readArguments options rest'
    | none =>
      if argument = "--difficulty" ∨ argument = "-d" then
        let name := rest.headD ""
        match Difficulty.ofName? name with
        | some difficulty => readArguments { options with difficulty := difficulty } rest.tail
        | none => .reject false (.unknownDifficulty name)
      else if argument = "--separate" then readArguments { options with separate := true } rest
      else if argument = "--verbose" ∨ argument = "-v" then readArguments options rest
      else if argument = "--help" ∨ argument = "-h" then .showUsage
      else .reject true (.unknownArgument argument)
termination_by arguments.length

/-- What a run of the program prints, and the fault that ended it. -/
structure Report where
  output : List String
  fault : Option Fault

def puzzleLines (options : Options) (number : Nat) (challenge : Puzzle) : List String :=
  ["--- Puzzle " ++ toString number ++ " (" ++ options.difficulty.name ++ ") ---",
    challenge.program.source, "", "Expected output:"] ++
    (challenge.expected.lines.map ("  " ++ ·) ++ [""])

def puzzleConfig (options : Options) (index : Nat) : PuzzleConfig :=
  { PuzzleConfig.ofDifficulty options.difficulty options.statements
      (options.seed + UInt64.ofNat index) with separate := options.separate }

/-- Makes puzzles one after the other. Those before a failure are printed all the same. -/
def makePuzzles (options : Options) (index : Nat) : Nat → Report
  | 0 => ⟨[], none⟩
  | count + 1 =>
    match Puzzle.make (puzzleConfig options index) 0 with
    | .error error => ⟨[], some (.generation error)⟩
    | .ok challenge =>
      let later := makePuzzles options (index + 1) count
      ⟨puzzleLines options (index + 1) challenge ++ later.output, later.fault⟩

def run (arguments : List String) : Report :=
  match readArguments .default arguments with
  | .showUsage => ⟨usage, none⟩
  | .reject withUsage fault => ⟨if withUsage then usage else [], some fault⟩
  | .generate options => makePuzzles options 0 options.count

namespace Report

def text (report : Report) : String :=
  String.join (report.output.map (· ++ "\n"))

def exitCode (report : Report) : UInt32 :=
  if report.fault.isSome then 1 else 0

def errorLine? (report : Report) : Option String :=
  report.fault.map fun fault => "Error: " ++ fault.describe

end Report

end RacePuzzle.CommandLine
