import Recurrence.Key.Basic
import Recurrence.Memo.Computation

/-!
# Scripts

A script is a list of steps over an accumulator that starts at zero; its last value is the result.
Steps add to it, call memoizers, fail, or act on the memoizers and the clock. Steps that handle an
error or look at a cache leave a note outside.
-/

namespace Recurrence

namespace Script

/-- What a step left behind. -/
inductive Note where
  /-- A call failed, and the error was handled. -/
  | handled (error : MemoError Key)
  /-- Whether a key was cached, and how many entries there were. -/
  | probed (cached : Bool) (size : Nat)

/-- A step; those that act on a memoizer act on their own one if they name none. -/
inductive Step (n : Nat) where
  | add (k : Int64)
  /-- Adds the number of computations this memoizer has started. -/
  | addRuns
  /-- Adds a multiple of the key. -/
  | addKeyTimes (factor : Int64)
  | stopIfAtMost (bound : Int64)
  | call (m : Option (Fin n)) (key : Key)
  /-- Calls this memoizer with a key at a distance from its own. -/
  | callAt (distance : Int64)
  /-- Calls a memoizer, and only notes an error. -/
  | attempt (m : Option (Fin n)) (key : Key)
  | probe (m : Option (Fin n)) (key : Key)
  | fail (reason : String)
  /-- Fails while this memoizer has started at most so many computations. -/
  | failUntil (bound : Int) (reason : String)
  | advance (d : Duration)
  | invalidate (m : Option (Fin n)) (key : Key)
  | clear (m : Option (Fin n))

variable {n : Nat}

/-- A computation that leaves notes, latest first. -/
abbrev Noting (n : Nat) := Computation n Key Int64 (List Note)

/-- Leaves a note. -/
def leaveNote (note : Note) (next : Noting n) : Noting n :=
  .look fun notes => .leave (note :: notes) next

/-- The computation of a script, for a memoizer, a key and a value of the accumulator. -/
def computation (self : Fin n) (key : Key) : List (Step n) → (acc : Int64) → Noting n
  | [], acc => .pure acc
  | step :: rest, acc =>
    let go := computation self key rest
    match step with
    | .add k => go (acc + k)
    | .addRuns => .runs self fun runs => go (acc + Int64.ofNat runs)
    | .addKeyTimes factor => go (acc + key.number * factor)
    | .stopIfAtMost bound => if key.number ≤ bound then .pure acc else go acc
    | .call m k => .value (m.getD self) k fun v => go (acc + v)
    | .callAt distance => .value self (.int (key.number + distance)) fun v => go (acc + v)
    | .attempt m k =>
      .call (m.getD self) k fun
        | .ok v => go (acc + v)
        | .error e => leaveNote (.handled e) (go acc)
    | .probe m k =>
      .probe (m.getD self) k fun cached size => leaveNote (.probed cached size) (go acc)
    | .fail reason => .fail reason
    | .failUntil bound reason =>
      .runs self fun runs => if (runs : Int) ≤ bound then .fail reason else go acc
    | .advance d => .advance d (go acc)
    | .invalidate m k => .invalidate (m.getD self) k (go acc)
    | .clear m => .clear (m.getD self) (go acc)

end Script

/-- Steps by key, and steps for all other keys. -/
structure Script (n : Nat) where
  rules : List (Key × List (Script.Step n))
  default : List (Script.Step n)

/-- The computation of a key: the first rule for it decides. -/
def Script.body {n : Nat} (s : Script n) (self : Fin n) (key : Key) : Script.Noting n :=
  let steps := ((s.rules.find? fun r => decide (r.1 = key)).map (·.2)).getD s.default
  Script.computation self key steps 0

end Recurrence
