import Recurrence.Key.Basic
import Recurrence.Memo.Ackermann

/-!
# A catalogue of recursive functions

Well-known recursions by their names, for memoizers whose keys are of any shape and whose results
are signed words of 64 bits. Fibonacci numbers and factorials, which outgrow them soon, wrap around;
in the other recursions a result that is no word unwinds the call.

The tasks of the program are not among them: they work on unsigned words, and none of their results
wraps around.
-/

namespace Recurrence.Catalogue

variable {n : Nat} {W : Type}

/-- Computations by integer keys. -/
abbrev Numeric (n : Nat) (W : Type) := Computation n Key Int64 W

/-- The numbers of a pair; other keys count as two zeros. -/
def pairOf : Key → Int64 × Int64
  | .tuple [a, b] => (a.number, b.number)
  | _ => (0, 0)

/-- A tuple of two numbers. -/
def pair (a b : Int64) : Key := .tuple [.int a, .int b]

/-- Ackermann's function on signed words. -/
def ackermann (self : Fin n) (key : Key) : Numeric n W :=
  Ackermann.step pair self (pairOf key).1 (pairOf key).2

def fib (self : Fin n) (key : Key) : Numeric n W :=
  let a := key.number
  if a < 2 then .pure a
  else .value self (.int (a - 1)) fun x => .value self (.int (a - 2)) fun y => .pure (x + y)

def factorial (self : Fin n) (key : Key) : Numeric n W :=
  let a := key.number
  if a ≤ 0 then .pure 1 else .value self (.int (a - 1)) fun x => .pure (a * x)

/-- The number that follows: half of an even number, and one more than the triple of an odd one. -/
def collatzNext (a : Int64) : Except Overflow Int64 :=
  if a % 2 = 0 then .ok (a / 2) else do Overflow.sum (← Overflow.product 3 a) 1

/-- How many steps it takes to reach one by halving even numbers and tripling odd ones. -/
def collatz (self : Fin n) (key : Key) : Numeric n W :=
  let a := key.number
  if a ≤ 1 then .pure 0
  else
    .checked (collatzNext a) fun next =>
      .value self (.int next) fun x => .checked (Overflow.sum 1 x) .pure

/-- A ring of keys: each asks for the one below it, and the lowest for three. -/
def ring (self : Fin n) (key : Key) : Numeric n W :=
  let a := key.number
  .value self (.int (if a ≤ 1 then 3 else a - 1)) .pure

/-- Pascal's triangle. -/
def binomial (self : Fin n) (key : Key) : Numeric n W :=
  let (a, b) := pairOf key
  if b ≤ 0 ∨ a ≤ b then .pure 1
  else
    .value self (pair (a - 1) (b - 1)) fun x =>
      .value self (pair (a - 1) b) fun y => .checked (Overflow.sum x y) .pure

/-- The recursions by name. -/
def find? : String → Option (Fin n → Key → Numeric n W)
  | "ackermann" => some ackermann
  | "fib" => some fib
  | "factorial" => some factorial
  | "collatz" => some collatz
  | "ring" => some ring
  | "binomial" => some binomial
  | _ => none

end Recurrence.Catalogue
