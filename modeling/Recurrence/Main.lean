import Recurrence.Command.Program

/-!
The command line: reads and writes files, prints what the program answers, and gives its exit code.
-/

namespace Recurrence.Command

/-- The fault behind an error of the file system. -/
def faultOf (e : IO.Error) : FileFault :=
  match e with
  | .noFileOrDirectory .. | .noSuchThing .. => .missing
  | .inappropriateType _ 21 _ => .isDirectory
  | .inappropriateType _ 20 _ => .notDirectory
  | .invalidArgument _ 36 _ => .nameTooLong
  | e => .other (toString e)

/-- The disk as the outside. -/
def Outside.disk : Outside IO where
  read path := do
    try return .ok (← IO.FS.readFile path)
    catch e => return .error (faultOf e)
  write path content := do
    try
      IO.FS.writeFile path content
      return .ok ()
    catch e => return .error (faultOf e)

/-- Prints what came of a run. -/
def Outcome.print (outcome : Outcome) : IO Unit := do
  IO.print outcome.output
  for line in outcome.log do
    IO.eprintln line
  match outcome with
  | .usage => IO.eprintln "error: these arguments make no sense; --help tells which do"
  | .nothing help => IO.eprint help
  | _ =>
    if let some message := outcome.failure then
      IO.eprintln ("Error: " ++ message)

end Recurrence.Command

open Recurrence.Command in
def main (arguments : List String) : IO UInt32 := do
  let outcome ← run .disk arguments
  outcome.print
  return UInt32.ofNat outcome.code
