import Recurrence.Decimal.Digits

/-!
# Decimal expansions

A rational number in decimal: a sign, an integer part, the digits before the repetition and the
digits that repeat for ever. An empty period means that the expansion terminates, so there is no
expansion whose repetition starts outside its digits.
-/

namespace Recurrence

/-- A decimal expansion. The sign is kept apart, so `-0` is an expansion of its own. -/
structure Expansion where
  negative : Bool
  integerPart : Nat
  /-- The fractional digits in front of the repetition. -/
  preperiod : List Digit
  /-- The fractional digits that repeat; none if the expansion terminates. -/
  period : List Digit
deriving DecidableEq, Repr

namespace Expansion

/-- All fractional digits written down, the repeating ones once. -/
def digits (e : Expansion) : List Digit := e.preperiod ++ e.period

def isRepeating (e : Expansion) : Bool := !e.period.isEmpty

/-- The index of the first repeating digit. -/
def repeatStart (e : Expansion) : Option Nat :=
  if e.period.isEmpty then none else some e.preperiod.length

/-- Cuts a digit string at the start of its repetition. -/
def ofDigits (negative : Bool) (integerPart : Nat) (ds : List Digit) :
    (repeatStart : Option Nat) → Expansion
  | none => ⟨negative, integerPart, ds, []⟩
  | some start => ⟨negative, integerPart, ds.take start, ds.drop start⟩

theorem digits_ofDigits (negative : Bool) (n : Nat) (ds : List Digit) (start : Option Nat) :
    (ofDigits negative n ds start).digits = ds := by
  cases start <;> simp [ofDigits, digits]

theorem negative_ofDigits (negative : Bool) (n : Nat) (ds : List Digit) (start : Option Nat) :
    (ofDigits negative n ds start).negative = negative := by
  cases start <;> rfl

theorem integerPart_ofDigits (negative : Bool) (n : Nat) (ds : List Digit) (start : Option Nat) :
    (ofDigits negative n ds start).integerPart = n := by
  cases start <;> rfl

/-- A repetition that starts inside the digits is kept. -/
theorem repeatStart_ofDigits (negative : Bool) (n : Nat) {ds : List Digit} {start : Option Nat}
    (h : ∀ i ∈ start, i < ds.length) : (ofDigits negative n ds start).repeatStart = start := by
  cases start with
  | none => rfl
  | some i =>
    have hi : i < ds.length := h i rfl
    have hperiod : ds.drop i ≠ [] := by simpa using hi
    rw [repeatStart, ofDigits, if_neg (by simpa using hperiod), List.length_take,
      Nat.min_eq_left (Nat.le_of_lt hi)]

/-- Cutting the digits where the repetition starts gives the expansion back. -/
theorem ofDigits_digits (e : Expansion) :
    ofDigits e.negative e.integerPart e.digits e.repeatStart = e := by
  obtain ⟨negative, n, lead, period⟩ := e
  cases period <;> simp [ofDigits, digits, repeatStart]

end Expansion

end Recurrence
