import Workflow.CommandLine.Execute
import Workflow.CommandLine.FileFault
import Workflow.Server.Offline

/-!
# The program

The program works on the files and variables of the machine it runs on. It has no
network: requests are made up and refused.
-/

namespace Workflow.CommandLine

/-- The number of what went wrong with a file. -/
def errorCode? : IO.Error → Option UInt32
  | .noFileOrDirectory _ code _ | .permissionDenied _ code _ | .inappropriateType _ code _
  | .invalidArgument _ code _ | .resourceExhausted _ code _ | .noSuchThing _ code _
  | .otherError code _ => some code
  | _ => none

/-- What went wrong with a file. -/
def fileError (e : IO.Error) : String :=
  match (errorCode? e).bind fun code => FileFault.ofCode? code.toNat with
  | some fault => fault.message
  | none => toString e

/-- A step with files, and what went wrong with it. -/
def tryFile {α : Type} (step : IO α) : IO (Except String α) :=
  (Except.mapError fileError) <$> step.toBaseIO

/-- The machine that the program runs on. -/
def machine : Host IO where
  readFile path := tryFile (IO.FS.readFile path)
  writeFile path content := tryFile (IO.FS.writeFile path content)
  lookup name := IO.getEnv name
  transport := .offline

end Workflow.CommandLine

open Workflow.CommandLine in
/-- Does what the arguments ask for. -/
def main (arguments : List String) : IO UInt32 := do
  let outcome ← execute machine arguments
  (← IO.getStdout).putStr outcome.output
  (← IO.getStderr).putStr outcome.errors
  return outcome.status.toUInt32
