import Recurrence.Clock
import Recurrence.Overflow

/-!
# Computations

A memoized computation is a tree of steps: what it does next may depend on every answer it has
received so far, but each run comes to an end. Steps name the memoizer they work on, so
computations of several memoizers may call each other; the outside is whatever else they read and
write, such as a counter of their own.
-/

namespace Recurrence

/-- Why a call has no result. -/
inductive MemoError (K : Type) where
  /-- The key is already being computed. -/
  | cycle (key : K)
  | failed (reason : String)
deriving DecidableEq, Repr

def MemoError.message {K : Type} (shown : K → String) : MemoError K → String
  | .cycle key => "Cycle detected. key: " ++ shown key
  | .failed reason => "Computation failed. reason: " ++ reason

/-- The result of a call. -/
abbrev MemoResult (K V : Type) := Except (MemoError K) V

/-- A computation over `n` memoizers, with an outside of type `W`. -/
inductive Computation (n : Nat) (K V W : Type) where
  | done (result : MemoResult K V)
  /-- Calls a memoizer; its error may be passed on or handled. -/
  | call (m : Fin n) (key : K) (next : MemoResult K V → Computation n K V W)
  /-- Asks a memoizer whether a key is cached, and how many entries it holds. -/
  | probe (m : Fin n) (key : K) (next : Bool → Nat → Computation n K V W)
  /-- Asks how many computations a memoizer has started. -/
  | runs (m : Fin n) (next : Nat → Computation n K V W)
  /-- Moves the manual clock; a clock that cannot go that far unwinds the whole call. -/
  | advance (by_ : Duration) (next : Computation n K V W)
  | clear (m : Fin n) (next : Computation n K V W)
  | invalidate (m : Fin n) (key : K) (next : Computation n K V W)
  | look (next : W → Computation n K V W)
  | leave (w : W) (next : Computation n K V W)
  /-- Meets an operation that cannot be done, which unwinds the whole call. -/
  | unwind (cause : Overflow)

namespace Computation

variable {n : Nat} {K V W : Type}

/-- Calls a memoizer and passes an error on. -/
def value (m : Fin n) (key : K) (next : V → Computation n K V W) : Computation n K V W :=
  .call m key fun
    | .ok v => next v
    | .error e => .done (.error e)

/-- Goes on with the result of an operation that may overflow. -/
def checked {A : Type} (result : Except Overflow A) (next : A → Computation n K V W) :
    Computation n K V W :=
  match result with
  | .ok a => next a
  | .error cause => .unwind cause

/-- Changes the outside first. -/
def after (change : W → W) (c : Computation n K V W) : Computation n K V W :=
  .look fun w => .leave (change w) c

/-- Comes to an end with a value. -/
def pure (v : V) : Computation n K V W := .done (.ok v)

/-- Comes to an end with a failure. -/
def fail (reason : String) : Computation n K V W := .done (.error (.failed reason))

end Computation

end Recurrence
