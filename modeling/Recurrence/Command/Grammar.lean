import Recurrence.Command.Choice
import Recurrence.Command.Number

/-!
# The grammar of the command line

Data only: the commands, their positional values, and the options of each, together with what the
help pages say about them. The same data drives the reader and the help pages.
-/

namespace Recurrence.Command

/-- The value of an option. -/
structure OptionValue where
  name : String
  accepts : String → Bool
  /-- The value of an option that is given without one; most options may not be. -/
  implied : Option String := none
  /-- The value if the option is not given. -/
  default : Option String := none
  /-- The names of the allowed values, and their help. -/
  choices : List (String × String) := []

/-- An option. Without a value it is a flag, which may be given any number of times. -/
structure Opt where
  short : Option Char := none
  long : String
  value : Option OptionValue := none
  help : String

/-- A value that is known by its position. -/
structure Positional where
  name : String
  accepts : String → Bool
  help : String

/-- What a command does. -/
inductive Verb where
  | divide
  | ackermann
  | reentrant
  | reactive
  | demo
deriving DecidableEq, Repr

/-- A command. -/
structure CommandSpec where
  verb : Verb
  name : String
  about : String
  positionals : List Positional := []
  options : List Opt := []
  /-- May positional values look like negative numbers? -/
  negativeNumbers : Bool := false

/-- The name under which the program is called. -/
def programName : String := "cycles_cli"

def versionText : String := "cycles_cli 0.1.0"

def verbose : Opt where
  short := some 'v'
  long := "verbose"
  help := "Increase logging verbosity"

def quiet : Opt where
  short := some 'q'
  long := "quiet"
  help := "Decrease logging verbosity"

/-- The file that log lines are also written to. -/
def trace : Opt where
  long := "trace"
  value := some
    { name := "TRACE", accepts := fun s => !s.isEmpty, implied := some "trace.log" }
  help := "Trace log file"

/-- The options in front of the command. -/
def programOptions : List Opt := [trace, verbose, quiet]

/-- The value of an option with choices. -/
def choiceValue {A : Type} (name default : String) (choices : List (Choice A)) : OptionValue where
  name := name
  accepts := fun s => (Choice.find? choices false s).isSome
  default := some default
  choices := choices.map fun c => (c.name, c.help)

def onCycle : Opt where
  long := "on-cycle"
  value := some (choiceValue "MODE" "describe" cycleModes)
  help := "Response to a repeating expansion"

def cacheOption : Opt where
  long := "cache"
  value := some (choiceValue "CACHE" "plain" cacheKinds)
  help := "Cache policy"

def capacityOption : Opt where
  long := "capacity"
  value := some
    { name := "ENTRIES", accepts := fun s => (readPositive? s).isSome, default := some "64" }
  help := "Maximum number of cached results, for the 'lru' cache"

def ttlOption : Opt where
  long := "ttl-ms"
  value := some
    { name := "MILLISECONDS", accepts := fun s => (readNat? maxNat64 s).isSome,
      default := some "1000" }
  help := "Lifetime of cached results in milliseconds, for the 'ttl' cache"

/-- A positional value up to a bound. -/
def boundedValue (name help : String) (bound : Nat) : Positional where
  name := name
  accepts := fun s => (readNat? bound s).isSome
  help := help

/-- A positional value that may be negative. -/
def signedValue (name help : String) : Positional where
  name := name
  accepts := fun s => (readInt? s).isSome
  help := help

def divideSpec : CommandSpec where
  verb := .divide
  name := "divide"
  about := "Divide two integers, showing any repeating digits in parentheses"
  positionals :=
    [ signedValue "NUMERATOR" "Numerator, e.g. '22'",
      signedValue "DENOMINATOR" "Denominator, e.g. '7'" ]
  options := [onCycle, verbose, quiet]
  negativeNumbers := true

def ackermannSpec : CommandSpec where
  verb := .ackermann
  name := "ackermann"
  about := "Compute the Ackermann function through a memoizing cache"
  positionals := [boundedValue "M" "First argument" 3, boundedValue "N" "Second argument" 8]
  options := [cacheOption, capacityOption, ttlOption, verbose, quiet]

def reentrantSpec : CommandSpec where
  verb := .reentrant
  name := "reentrant"
  about := "Show that a re-entrant call with unchanged arguments is rejected"
  positionals := [boundedValue "N" "Argument to call with" 20]
  options := [verbose, quiet]

def reactiveSpec : CommandSpec where
  verb := .reactive
  name := "reactive"
  about := "Show recomputation of derived values when their inputs change"
  options := [verbose, quiet]

def demoSpec : CommandSpec where
  verb := .demo
  name := "demo"
  about := "Run every demonstration"
  options := [verbose, quiet]

/-- All commands but the one for help. -/
def commandSpecs : List CommandSpec :=
  [divideSpec, ackermannSpec, reentrantSpec, reactiveSpec, demoSpec]

def commandSpec? (name : String) : Option CommandSpec :=
  commandSpecs.find? fun spec => spec.name == name

def helpCommand : String := "help"

def helpAbout : String := "Print this message or the help of the given subcommand(s)"

end Recurrence.Command
