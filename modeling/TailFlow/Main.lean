import Std.Time.DateTime.Timestamp
import TailFlow.CommandLine.Commands
import TailFlow.CommandLine.PathFault

/-!
# The command line

Runs the commands on the files and the output of the process.
-/

namespace TailFlow.CommandLine

/-- The number of the reason for which a path cannot be used. -/
def failureCode? : IO.Error → Option UInt32
  | .noFileOrDirectory _ code _ => some code
  | .permissionDenied _ code _ => some code
  | .inappropriateType _ code _ => some code
  | .invalidArgument _ code _ => some code
  | _ => none

/-- The text of the reason for which a file cannot be used. -/
def failureText (failure : IO.Error) : String :=
  match (failureCode? failure).bind fun code => PathFault.ofCode? code.toNat with
  | some fault => fault.message
  | none => toString failure

/-- Runs an action on files, and gives the reason if it fails. -/
def attemptFile {α : Type} (action : IO α) : IO (Except String α) := do
  try return .ok (← action)
  catch failure => return .error (failureText failure)

/-- The time in milliseconds since the epoch of the system clock. -/
def systemMilliseconds : IO Nat :=
  return (← Std.Time.Timestamp.now).toMillisecondsSinceUnixEpoch.toInt.toNat

/-- The host that works on the files and the output of the process. -/
def processHost : Host IO where
  readFile path := attemptFile (IO.FS.readFile path)
  writeFile path contents := attemptFile (IO.FS.writeFile path contents)
  print text := do (← IO.getStdout).putStr text
  clock := systemMilliseconds

end TailFlow.CommandLine

open TailFlow.CommandLine in
/-- Runs the line that the process was started with. -/
def main (words : List String) : IO UInt32 := do
  let ending ← execute processHost words
  (← IO.getStderr).putStr ending.errorText
  return UInt32.ofNat ending.code
