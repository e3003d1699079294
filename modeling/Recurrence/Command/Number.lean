import Recurrence.Decimal.Digits

/-!
# Numbers on the command line

ASCII digits with an optional sign in front, leading zeros allowed, and nothing else; the number
must fit its word.
-/

namespace Recurrence.Command

/-- The value of at least one digit. -/
def readDigits? (cs : List Char) : Option Nat :=
  if cs.isEmpty then none else (Digits.ofChars? cs).map Digits.value

/-- An unsigned number up to a bound; it may have a plus sign. -/
def readNat? (bound : Nat) (s : String) : Option Nat :=
  let digits := match s.toList with
    | '+' :: cs => cs
    | cs => cs
  (readDigits? digits).filter (· ≤ bound)

/-- A signed number of 64 bits. -/
def readInt? (s : String) : Option Int :=
  let n := match s.toList with
    | '-' :: cs => (readDigits? cs).map fun n => -(n : Int)
    | '+' :: cs => (readDigits? cs).map Int.ofNat
    | cs => (readDigits? cs).map Int.ofNat
  n.filter fun n => -9223372036854775808 ≤ n && n < 9223372036854775808

/-- The largest unsigned number of 64 bits. -/
def maxNat64 : Nat := Nat.pow 2 64 - 1

/-- An unsigned word of 64 bits. -/
def readWord? (s : String) : Option UInt64 := (readNat? maxNat64 s).map .ofNat

/-- An unsigned word in digits. -/
def wordText (a : UInt64) : String := natText a.toNat

/-- A number from one to the largest of 64 bits. -/
def readPositive? (s : String) : Option Nat := (readNat? maxNat64 s).filter (0 < ·)

/-- Is this a minus sign with digits behind it? -/
def isNegativeNumber : List Char → Bool
  | '-' :: cs => (readDigits? cs).isSome
  | _ => false

end Recurrence.Command
