/-
# PegMachine.Main — running the command

Reads the arguments, the settings and the input, and writes the report that
`CommandLine` makes of them.
-/
import PegMachine.CommandLine

namespace PegMachine

set_option autoImplicit false

/-- The reason why reading failed, as far as it has a wording of its own. -/
def readError : IO.Error → CommandLine.ReadError
  | .noFileOrDirectory .. => .missing
  | .inappropriateType .. => .directory
  | e => .other (toString e)

/-- Read an input to its end. -/
def readInput (input : String) : IO (Except CommandLine.ReadError String) := do
  try
    let bytes ←
      if input == CommandLine.standardInput then (← IO.getStdin).readBinToEnd
      else IO.FS.readBinFile input
    match String.fromUTF8? bytes with
    | some text => return .ok text
    | none => return .error .notText
  catch e => return .error (readError e)

/-- Carry out a plan. -/
def carryOut (settings : Log.Settings) : CommandLine.Plan → IO CommandLine.Report
  | .answer report => return report
  | .read options input => do
    return CommandLine.respond settings options input (← readInput input)

end PegMachine

/-- The command. -/
def main (arguments : List String) : IO UInt32 := do
  let settings := PegMachine.Log.Settings.read (← IO.getEnv "DEBUG") (← IO.getEnv "DEBUG_VERBOSITY")
  let report ← PegMachine.carryOut settings (PegMachine.CommandLine.plan arguments)
  IO.eprint report.stderr
  IO.print report.stdout
  return UInt32.ofNat report.exitCode
