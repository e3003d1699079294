/-!
# Decimal digits

A digit is a number below ten, and a digit string is read with the most significant digit first.
`value_ofNat` says that the digits of a number denote it, which is what makes `natText` a faithful
text of it.
-/

namespace Recurrence

/-- A decimal digit. -/
abbrev Digit := Fin 10

namespace Digit

/-- The last digit of a number. -/
def ofNat (n : Nat) : Digit := ⟨n % 10, Nat.mod_lt n (by decide)⟩

/-- The ASCII character of a digit. -/
def char (d : Digit) : Char := Char.ofNat (48 + d.val)

/-- The digit an ASCII character stands for; no other script's digits count. -/
def ofChar? (c : Char) : Option Digit :=
  if 48 ≤ c.toNat ∧ c.toNat ≤ 57 then some (ofNat (c.toNat - 48)) else none

theorem ofChar?_char (d : Digit) : ofChar? d.char = some d := by
  revert d; decide

end Digit

namespace Digits

/-- The number a digit string denotes; the empty string denotes zero. -/
def value (ds : List Digit) : Nat := ds.foldl (fun v d => 10 * v + d.val) 0

/-- The digits of a number without leading zeros; zero has the one digit `0`. -/
def ofNat (n : Nat) : List Digit :=
  if n < 10 then [Digit.ofNat n] else ofNat (n / 10) ++ [Digit.ofNat n]

theorem value_append_singleton (ds : List Digit) (d : Digit) :
    value (ds ++ [d]) = 10 * value ds + d.val := by
  simp [value]

theorem value_ofNat (n : Nat) : value (ofNat n) = n := by
  induction n using Nat.strongRecOn with
  | ind n ih =>
    unfold ofNat
    by_cases h : n < 10
    · simp [h, value, Digit.ofNat, Nat.mod_eq_of_lt h]
    · rw [if_neg h, value_append_singleton, ih (n / 10) (by omega)]
      simp only [Digit.ofNat]
      omega

/-- The characters of a digit string. -/
def chars (ds : List Digit) : List Char := ds.map Digit.char

/-- Reads a string of ASCII digits; the empty string is the empty digit string. -/
def ofChars? : List Char → Option (List Digit)
  | [] => some []
  | c :: cs => do return (← Digit.ofChar? c) :: (← ofChars? cs)

theorem ofChars?_chars (ds : List Digit) : ofChars? (chars ds) = some ds := by
  induction ds with
  | nil => rfl
  | cons d ds ih =>
    have h : ofChars? (ds.map Digit.char) = some ds := ih
    simp [chars, ofChars?, Digit.ofChar?_char, h]

end Digits

/-- A natural number in decimal. -/
def natChars (n : Nat) : List Char := Digits.chars (Digits.ofNat n)

/-- An integer in decimal, with a sign only in front of a negative one. -/
def intChars : Int → List Char
  | .ofNat n => natChars n
  | .negSucc n => '-' :: natChars (n + 1)

/-- A natural number in decimal, as text. -/
def natText (n : Nat) : String := String.ofList (natChars n)

/-- An integer in decimal, as text. -/
def intText (n : Int) : String := String.ofList (intChars n)

end Recurrence
