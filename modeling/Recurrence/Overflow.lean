/-!
# Overflow

Arithmetic that must not leave its words. The result of an operation is computed exactly and is a
word only if it fits one; otherwise the answer is the operation that overflowed.
-/

namespace Recurrence

/-- Words stand for the integers from the least to the greatest of them. -/
class Word (A : Type) where
  least : Int
  greatest : Int
  toInt : A → Int
  ofInt : Int → A

instance : Word Int64 where
  least := -9223372036854775808
  greatest := 9223372036854775807
  toInt := Int64.toInt
  ofInt := .ofInt

instance : Word UInt64 where
  least := 0
  greatest := 18446744073709551615
  toInt a := a.toNat
  ofInt n := .ofNat n.toNat

/-- An operation whose result cannot be represented. -/
inductive Overflow where
  | add
  | subtract
  | multiply
  /-- A point in time moved out of reach. -/
  | instant
deriving DecidableEq, Repr

namespace Overflow

def message : Overflow → String
  | .add => "attempt to add with overflow"
  | .subtract => "attempt to subtract with overflow"
  | .multiply => "attempt to multiply with overflow"
  | .instant => "overflow when adding duration to instant"

variable {A : Type} [Word A]

/-- The word for a number, if there is one. -/
def word (operation : Overflow) (n : Int) : Except Overflow A :=
  if Word.least A ≤ n ∧ n ≤ Word.greatest A then .ok (Word.ofInt n) else .error operation

/-- A sum within the words. -/
def sum (a b : A) : Except Overflow A := word .add (Word.toInt a + Word.toInt b)

/-- A difference within the words. -/
def difference (a b : A) : Except Overflow A := word .subtract (Word.toInt a - Word.toInt b)

/-- A product within the words. -/
def product (a b : A) : Except Overflow A := word .multiply (Word.toInt a * Word.toInt b)

end Overflow

end Recurrence
