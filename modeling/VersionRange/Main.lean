import VersionRange.CommandLine.Report

/-!
# The program

Reads the arguments and the environment, and prints the report. Arguments that are not well
formed end the program with status 2.
-/

/-- Run a command of the program. Source: `main`. -/
def main (given : List String) : IO UInt32 := do
  let length ← IO.getEnv VersionRange.Limits.inputLengthVariable
  let depth ← IO.getEnv VersionRange.Limits.depthVariable
  let environment (name : String) : Option String :=
    if name = VersionRange.Limits.inputLengthVariable then length
    else if name = VersionRange.Limits.depthVariable then depth
    else none
  match VersionRange.CommandLine.run given environment with
  | some report => do
    IO.print report.standardOutput
    IO.eprint report.standardError
    return report.status.toUInt32
  | none => do
    IO.eprintln "Error: the arguments are not well formed"
    return 2
