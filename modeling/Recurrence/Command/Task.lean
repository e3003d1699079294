import Recurrence.Command.Reader
import Recurrence.Log

/-!
# Tasks

What a command line asks for once its values have been understood, and how much of the log is to be
shown.
-/

namespace Recurrence.Command

/-- A command with its values. -/
inductive Task where
  | divide (numerator denominator : Int) (mode : Detector.Mode)
  | ackermann (m n : UInt64) (cache : CacheKind) (capacity ttlMillis : Nat)
  | reentrant (n : UInt64)
  | reactive
  | demo
deriving DecidableEq, Repr

namespace Task

/-- Named values as they are shown. -/
def braced (name : String) (values : List (String × String)) : String :=
  name ++ " \x7b " ++ ", ".intercalate (values.map fun v => v.1 ++ ": " ++ v.2) ++ " \x7d"

/-- A task as it is shown. -/
def text : Task → String
  | .divide n d mode =>
    braced "Divide"
      [("numerator", intText n), ("denominator", intText d),
        ("on_cycle", Choice.titleOf cycleModes mode)]
  | .ackermann m n cache capacity ttlMillis =>
    braced "Ackermann"
      [("m", wordText m), ("n", wordText n), ("cache", Choice.titleOf cacheKinds cache),
        ("capacity", natText capacity), ("ttl_ms", natText ttlMillis)]
  | .reentrant n => braced "Reentrant" [("n", wordText n)]
  | .reactive => "Reactive"
  | .demo => "Demo"

/-- The value of an option, or what stands for it if it was not given. -/
def optionText (found : Found) (o : Opt) : Option String :=
  (found.value? o).or (o.value.bind (·.default))

/-- The choice made for an option. -/
def chosen? {A : Type} (found : Found) (o : Opt) (choices : List (Choice A)) : Option A := do
  return (← Choice.find? choices false (← optionText found o)).value

/-- The task of a command and what was found behind it. -/
def ofFound? (verb : Verb) (found : Found) : Option Task :=
  match verb, found.words with
  | .divide, [n, d] => do
    return .divide (← readInt? n) (← readInt? d) (← chosen? found onCycle cycleModes)
  | .ackermann, [m, n] => do
    return .ackermann (← readWord? m) (← readWord? n)
      (← chosen? found cacheOption cacheKinds)
      (← (optionText found capacityOption).bind readPositive?)
      (← (optionText found ttlOption).bind (readNat? maxNat64))
  | .reentrant, [n] => do return .reentrant (← readWord? n)
  | .reactive, [] => some .reactive
  | .demo, [] => some .demo
  | _, _ => none

end Task

/-- The most that a flag counts, however often it is given. -/
def flagLimit : Nat := 255

/-- How much a flag counts: what stands behind the command replaces what stands in front of it. -/
def flagCount (program own : Found) (o : Opt) : Nat :=
  min (if own.count o = 0 then program.count o else own.count o) flagLimit

/-- The least important lines that are shown. Without any flag these are the important ones; each
flag is a step towards showing everything or nothing. -/
def shownFrom (program own : Found) : Option Log.Level :=
  let importance : Int :=
    Log.Level.rank .info - flagCount program own verbose + flagCount program own quiet
  if importance ≤ Log.Level.rank .trace then some .trace
  else if importance = Log.Level.rank .debug then some .debug
  else if importance = Log.Level.rank .info then some .info
  else none

/-- A task, and where its log goes. -/
structure Options where
  task : Task
  /-- The file that gets the log, too. -/
  traceFile : Option String
  /-- The least important lines that are shown, if any are. -/
  least : Option Log.Level

def Options.ofFound? (program : Found) (verb : Verb) (own : Found) : Option Options := do
  return ⟨← Task.ofFound? verb own, program.value? trace, shownFrom program own⟩

/-- Is a line important enough? -/
def Options.shows (o : Options) (line : Log.Line) : Bool :=
  o.least.any fun level => level.rank ≤ line.level.rank

end Recurrence.Command
