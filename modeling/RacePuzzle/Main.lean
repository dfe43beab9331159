import RacePuzzle.CommandLine

/-! Prints the report of a run and exits with its code. -/
namespace RacePuzzle.CommandLine

def execute (arguments : List String) : IO UInt32 := do
  let report := run arguments
  IO.print report.text
  (report.errorLine?).forM fun line => IO.eprintln line
  return report.exitCode

end RacePuzzle.CommandLine

def main (arguments : List String) : IO UInt32 :=
  RacePuzzle.CommandLine.execute arguments
