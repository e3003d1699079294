import Recurrence.Command.Report
import Recurrence.Reactive.Read

/-!
# Reactivity at work

A total over two cells, read after changes of the cells, and two nodes that need each other. The
total is computed again only when a cell holds another value than it did at the last read.
-/

namespace Recurrence.Command

namespace Reactivity

/-- The price of one piece. -/
def price : Fin 2 := 0

/-- How many pieces there are. -/
def quantity : Fin 2 := 1

/-- The price of all pieces. -/
def total : Fin 3 := 0

/-- Needs its leader. -/
def follower : Fin 3 := 1

/-- Needs its follower. -/
def leader : Fin 3 := 2

/-- A node that multiplies its inputs, and two nodes that each read the other on the way. -/
def system : Reactive.System 3 2 Int64 Unit where
  inputs
    | 0 => [.cell price, .cell quantity]
    | _ => [.cell price]
  recipe
    | 0, inputs => .pure (inputs.foldl (· * ·) 1)
    | 1, inputs => .value leader fun v => .pure (inputs.foldl (· + ·) v)
    | 2, inputs => .value follower fun v => .pure (inputs.foldl (· + ·) v)

abbrev State := Reactive.State 3 2 Int64 Unit

/-- A value or an error in words. -/
def resultText : Except (Reactive.Error 3) Int64 → String
  | .ok v => intText v.toInt
  | .error e => e.message

/-- What is done to the cells, and which node is read afterwards. -/
structure Step where
  label : String
  change : List (Fin 2 × Int64)
  node : Fin 3
  /-- What is said about the value that was read. -/
  wording : State → String → String

/-- Does one step after the other. -/
def run : List Step → State → List String × State
  | [], s => ([], s)
  | step :: steps, s =>
    let s := step.change.foldl (fun s c => s.set c.1 c.2) s
    match system.read step.node s with
    | .returned result s =>
      let (lines, last) := run steps s
      ((step.label ++ ": " ++ step.wording s (resultText result)) :: lines, last)
    | .unwound s => ([], s)
    | .exhausted => ([], s)

/-- Reads the total after a change, and says how often it has been computed. -/
def totalStep (label : String) (change : List (Fin 2 × Int64)) : Step where
  label := label
  change := change
  node := total
  wording := fun s result =>
    "total = " ++ result ++ " (recomputations: " ++ natText (s.runCount total) ++ ")"

def steps : List Step :=
  [ totalStep "first read" [],
    totalStep "second read" [],
    totalStep "quantity set to 3" [(quantity, 3)],
    totalStep "price set to 12" [(price, 12)],
    { label := "leader <-> follower"
      change := []
      node := leader
      wording := fun _ result => result } ]

end Reactivity

/-- Shows when a node is computed again, and two nodes that need each other. -/
def reactive : Report :=
  let (lines, s) := Reactivity.run Reactivity.steps (.start #v[10, 3] ())
  .all (.note (s.log.reverse.map (·.line)) :: lines.map .say)

end Recurrence.Command
