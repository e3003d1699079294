import Recurrence.Command.Help
import Recurrence.Command.Run
import Recurrence.Files

/-!
# The program

From arguments to what is to be printed. The program touches the outside in two places only: it
reads files that hold arguments, and it writes the file that gets the log. So it is written over any
monad with these two operations, and runs in the same way on a disk and on a tree of files.
-/

namespace Recurrence.Command

/-- What the program needs from outside. -/
structure Outside (m : Type → Type) where
  read : (path : String) → m (Except FileFault String)
  write : (path content : String) → m (Except FileFault Unit)

/-- Why there are no arguments. -/
inductive ArgumentError where
  | cannotRead (path : String) (fault : FileFault)
  | tooManyFiles
deriving DecidableEq, Repr

/-- A directory can be opened, and only then turns out to be none that can be read. -/
def ArgumentError.message : ArgumentError → String
  | .cannotRead path fault =>
    let verb := if fault = .isDirectory then "read from" else "open"
    "failed to " ++ verb ++ " file `" ++ path ++ "`\n\nCaused by:\n    " ++ fault.message
  | .tooManyFiles => "too many argument files"

/-- The path of a file that an argument stands for. -/
def argumentFile? (argument : String) : Option String :=
  match argument.toList with
  | '@' :: path => some (String.ofList path)
  | _ => none

/-- Puts the lines of files in the place of the arguments that name them; lines may name files
again. Files that name each other without end are given up after so many. -/
def expandArguments {m : Type → Type} [Monad m] (outside : Outside m) :
    (files : Nat) → List String → m (Except ArgumentError (List String))
  | _, [] => pure (.ok [])
  | files, argument :: rest =>
    match argumentFile? argument, files with
    | none, files => do
      return (← expandArguments outside files rest).map (argument :: ·)
    | some _, 0 => pure (.error .tooManyFiles)
    | some path, files + 1 => do
      match ← outside.read path with
      | .error fault => return .error (.cannotRead path fault)
      | .ok content =>
        let lines := (Text.lines content.toList).map String.ofList
        expandArguments outside files (lines ++ rest)
termination_by files arguments => (files, arguments.length)

/-- How many files may hold arguments. -/
def fileLimit : Nat := 100000

/-- What came of a run. -/
inductive Outcome where
  /-- The arguments break the grammar. -/
  | usage
  /-- There were no arguments; the help goes where errors go. -/
  | nothing (help : String)
  /-- What was asked for is a text. -/
  | text (content : String)
  /-- Nothing could be run. -/
  | failed (message : String)
  /-- A task was run; its log is what is shown of it. -/
  | ran (report : Report)

/-- Runs a task. If its log cannot be written, the task is not run at all. -/
def runTask {m : Type → Type} [Monad m] (outside : Outside m) (options : Options) : m Outcome := do
  let report := options.task.report.filterLog options.shows
  match options.traceFile with
  | none => return .ran report
  | some path =>
    match ← outside.write path (String.join (report.log.map fun line => line.render ++ "\n")) with
    | .error fault => return .failed fault.message
    | .ok () => return .ran report

/-- Does what was asked for. -/
def answer {m : Type → Type} [Monad m] (outside : Outside m) : Request → m Outcome
  | .usage => pure .usage
  | .nothing => pure (.nothing programHelp)
  | .version => pure (.text (versionText ++ "\n"))
  | .programHelp => pure (.text programHelp)
  | .commandHelp spec long => pure (.text (spec.helpText long))
  | .helpHelp => pure (.text helpHelp)
  | .command program spec own =>
    match Options.ofFound? program spec.verb own with
    | some options => runTask outside options
    | none => pure .usage

/-- Runs the program. -/
def run {m : Type → Type} [Monad m] (outside : Outside m) (arguments : List String) :
    m Outcome := do
  match ← expandArguments outside fileLimit arguments with
  | .error e => return .failed e.message
  | .ok arguments => answer outside (readLine {} arguments)

namespace Outcome

/-- The exit code. -/
def code : Outcome → Nat
  | .usage | .nothing _ => 2
  | .text _ => 0
  | .failed _ => 1
  | .ran report => if report.failure.isSome then 1 else 0

/-- What is printed. -/
def output : Outcome → String
  | .usage | .nothing _ | .failed _ => ""
  | .text content => content
  | .ran report => String.join (report.output.map (· ++ "\n"))

/-- The lines of the log. -/
def log : Outcome → List String
  | .ran report => report.log.map Log.Line.render
  | _ => []

/-- Why the run failed, if it did. -/
def failure : Outcome → Option String
  | .failed message => some message
  | .ran report => report.failure
  | _ => none

end Outcome

/-- A tree of files as the outside. -/
def Outside.ofFiles : Outside (StateM Files) where
  read path := do return (← get).read path
  write path content := do
    match (← get).write path content with
    | .error fault => return .error fault
    | .ok files => set files; return .ok ()

end Recurrence.Command
