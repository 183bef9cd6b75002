/-
The program: prints the outline of the source in a file or on standard input.
-/
import ArrayExpr.CommandLine

namespace ArrayExpr

namespace CommandLine

/-- The text of a file, if it can be read. -/
def fileText? (name : String) : IO (Option String) := do
  try
    return some (← IO.FS.readFile name)
  catch _ =>
    return none

/-- Prints a result, or the wording of a fault. -/
def report : Except Fault Result → IO UInt32
  | .ok result => do
    IO.print result.output
    IO.eprint result.errors
    return UInt32.ofNat result.status
  | .error fault => do
    IO.eprintln fault.message
    return 1

end CommandLine

end ArrayExpr

open ArrayExpr CommandLine in
/-- Reads the input that the arguments choose, and reports on it. -/
def main (args : List String) : IO UInt32 := do
  let setting ← IO.getEnv DepthSetting.variableName
  match input args with
  | .standard =>
    let text ← (← IO.getStdin).readToEnd
    report (run setting text (fun _ => none) args)
  | .file name =>
    let text? ← fileText? name
    report (run setting "" (fun _ => text?) args)
