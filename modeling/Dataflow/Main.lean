/-
# The command line
-/
import Dataflow.Command.Run

namespace Dataflow
namespace Command

/-- The content of a file, or why it cannot be read. -/
def readSource (path : String) : IO (Except String String) := do
  try return .ok (← IO.FS.readFile path)
  catch e => return .error (toString e)

/-- Write a file; gives the reason if that fails. -/
def writeTarget (path content : String) : IO (Option String) := do
  try
    IO.FS.writeFile path content
    return none
  catch e => return some (toString e)

/-- Show an outcome and give its exit code. -/
def present (outcome : Outcome) : IO UInt32 := do
  IO.print outcome.stdout
  IO.eprint outcome.stderr
  return outcome.code.toUInt32

end Command
end Dataflow

open Dataflow.Command in
/-- Run the command on the process's arguments. -/
def main (arguments : List String) : IO UInt32 := do
  match answer? (parse arguments) with
  | .error outcome => present outcome
  | .ok o =>
    let run := process o (← readSource o.input)
    let outcome := conclude o run fun _ => none
    match outcome.written with
    | none => present outcome
    | some (path, content) =>
      match ← writeTarget path content with
      | none => present outcome
      | some cause => present (conclude o run fun _ => some cause)
