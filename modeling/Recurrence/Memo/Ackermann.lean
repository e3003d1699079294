import Recurrence.Memo.Computation

/-!
# Ackermann's function

The recursion for Ackermann's function, as a computation that calls itself through a memoizer. The
argument of its last call is itself the result of a call. Arguments and results are words, and a
number that is no word unwinds the call.

The program runs it on pairs of unsigned words, and counts the computations that it takes.
-/

namespace Recurrence.Ackermann

variable {n : Nat} {W : Type}

/-- One computation, for words of any kind and keys that are made of two of them. -/
def step {A K : Type} [Word A] [DecidableEq A] [OfNat A 0] [OfNat A 1] (pair : A → A → K)
    (self : Fin n) (a b : A) : Computation n K A W :=
  if a = 0 then .checked (Overflow.sum b 1) .pure
  else if b = 0 then
    .checked (Overflow.difference a 1) fun below => .value self (pair below 1) .pure
  else
    .checked (Overflow.difference b 1) fun left =>
      .value self (pair a left) fun inner =>
        .checked (Overflow.difference a 1) fun below => .value self (pair below inner) .pure

/-- Two unsigned words of 64 bits. -/
abbrev Arguments := UInt64 × UInt64

/-- The computation for two unsigned words. -/
def computation (self : Fin n) (arguments : Arguments) : Computation n Arguments UInt64 W :=
  step Prod.mk self arguments.1 arguments.2

/-- The same, and each computation is counted as it begins. -/
def counted (self : Fin n) (arguments : Arguments) : Computation n Arguments UInt64 Nat :=
  (computation self arguments).after (· + 1)

end Recurrence.Ackermann
