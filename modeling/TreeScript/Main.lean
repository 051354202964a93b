import TreeScript.CommandLine

/-!
# The program `tree-script`

Reads the files that the command line names, and prints the lines of the report.
-/

open TreeScript

/-- What a file holds, or why it cannot be read. -/
def readSource (file : String) : IO (Except String String) := do
  try
    return .ok (← IO.FS.readFile file)
  catch e =>
    return .error (toString e)

/-- Answers a command line. -/
def main (arguments : List String) : IO UInt32 := do
  let mut sources : List (String × Except String String) := []
  for file in CommandLine.filesRead arguments do
    sources := sources ++ [(file, ← readSource file)]
  let read := fun (file : String) => (sources.lookup file).getD (.error "not read")
  match CommandLine.run read arguments with
  | none => return 1
  | some report =>
    if report.exit = 2 then
      IO.eprintln "usage: run --tree <FILE> [--symbols <FILE>] [--strict-fields] [--no-builtins]"
    report.lines.forM IO.println
    return report.exit.toUInt32
