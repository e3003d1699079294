import Std.Data.HashMap
import Recurrence.Log
import Recurrence.Decimal.Digits
import Recurrence.Overflow

/-!
# Recurrence detector

A process that visits keys one after the other is caught in a cycle as soon as a key comes back.
The detector keeps the position of each key's *first* sighting and never moves it, so a verdict
always points at the start of the cycle, however often the key has come back since.
-/

namespace Recurrence

/-- What a detector answers when a key comes back: the cycle, or a refusal. -/
inductive Detector.Mode where
  | describe
  | fail
deriving DecidableEq, Repr

/-- The positions of the keys seen so far. -/
structure Detector (K : Type) [BEq K] [Hashable K] where
  mode : Detector.Mode
  seen : Std.HashMap K Nat := {}

namespace Detector

/-- The answer to a key that comes back. -/
inductive Verdict where
  /-- The key was first seen at `start`, `length` positions ago. -/
  | cycle (start length : Nat)
  /-- The key came back and the detector does not allow it. -/
  | refused (start position : Nat)
  /-- The key came back at a position before its first one. -/
  | backwards (start position : Nat)
deriving DecidableEq, Repr

variable {K : Type} [BEq K] [Hashable K]

/-- A detector that has seen nothing. -/
def new (mode : Mode) : Detector K := { mode }

/-- The verdict on a key that was first seen at `start`. -/
def Mode.verdict (mode : Mode) (start position : Nat) : Verdict :=
  match mode with
  | .fail => .refused start position
  | .describe =>
    if start ≤ position then .cycle start (position - start) else .backwards start position

/-- Notes a key at a position. Only a key seen for the first time changes the detector, and only
such a key has no verdict. -/
def observe (d : Detector K) (key : K) (position : Nat) : Detector K × Option Verdict :=
  match d.seen[key]? with
  | none => ({ d with seen := d.seen.insert key position }, none)
  | some start => (d, some (d.mode.verdict start position))

/-- How many different keys were seen. -/
def size (d : Detector K) : Nat := d.seen.size

/-- The text of a refusal. -/
def refusal (start position : Nat) : String :=
  "Cycle detected. start: " ++ natText start ++ ", position: " ++ natText position

/-- The operation that could not be done: a cycle that runs backwards has no length. -/
def Verdict.overflow? : Verdict → Option Overflow
  | .backwards _ _ => some .subtract
  | _ => none

/-- Where the key was first seen. -/
def Verdict.start : Verdict → Nat
  | .cycle start _ | .refused start _ | .backwards start _ => start

/-- What a verdict reports, in whatever mode it was reached. -/
def Verdict.log (v : Verdict) (key : String) (position : Nat) : Log.Line :=
  ⟨.trace, "Key recurred. key: " ++ key ++ ", start: " ++ natText v.start
    ++ ", position: " ++ natText position⟩

end Detector

end Recurrence
