import LatencyControl.CommandLine

/-!
# The program

Reads the files that the command line names and prints the overview of the job's roles.  Everything
else is decided by `LatencyControl.CommandLine`.
-/

namespace LatencyControl.CommandLine

/-- What the program expects of its command line. -/
def usage : String := "Usage: latency-control --job <JOB> [--config <CONFIG>]"

/-- The content of a file; nothing if it cannot be read. -/
def readFile? (path : String) : IO (Option ByteArray) := do
  try
    return some (← IO.FS.readBinFile path)
  catch _ =>
    return none

/-- Runs the program, given what its command line asks for. -/
def execute (arguments : Arguments) : IO UInt32 := do
  let settings ← arguments.settings.mapM readFile?
  let job ← readFile? arguments.job
  match deployFiles settings job with
  | .ok d =>
    IO.print (overview d)
    return 0
  | .error e =>
    IO.eprintln e.message
    return 1

end LatencyControl.CommandLine

open LatencyControl.CommandLine in
/-- The entry point: a command line that makes no sense is answered by the usage. -/
def main (arguments : List String) : IO UInt32 := do
  match Arguments.ofList? arguments with
  | some arguments => execute arguments
  | none =>
    IO.eprintln usage
    return 2
