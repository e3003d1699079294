import Recurrence.Expansion.Basic

/-!
# The fraction of an expansion

With `p` digits before the repetition and `r` repeating ones, an expansion is a fraction over
`10 ^ p * (10 ^ r - 1)`, or over `10 ^ p` if it terminates. The fraction is computed in signed words
of 128 bits. Most steps are checked, and there is no fraction as soon as one of them leaves the
words. Three steps are not: taking one from a power of ten, changing the sign, and dividing. If one
of these went wrong, the whole computation would break down.
-/

namespace Recurrence

namespace Expansion

/-- The largest signed word of 128 bits. -/
def maxWord : Nat := Nat.pow 2 127 - 1

/-- A signed word of 128 bits holds the number. -/
def IsWord (n : Int) : Prop := -(maxWord : Int) - 1 ≤ n ∧ n ≤ maxWord

instance : DecidablePred IsWord := fun _ => inferInstanceAs (Decidable (_ ∧ _))

/-- What goes wrong in a step that is not checked. -/
inductive Breakdown where
  | overflow
  | zeroDenominator
deriving DecidableEq, Repr

/-- A computation in words: it comes to a result, it gives up, or it breaks down. -/
abbrev InWords := OptionT (Except Breakdown)

/-- A checked step gives up if its result is no word. -/
def checked (n : Int) : InWords Int := if IsWord n then pure n else failure

/-- A step that is not checked breaks down if its result is no word. -/
def unchecked (n : Int) : InWords Int :=
  if IsWord n then pure n else OptionT.lift (.error .overflow)

/-- A power of ten, if it fits a word. -/
def powerOfTen (k : Nat) : InWords Int := checked (Nat.pow 10 k : Nat)

/-- The value of a digit string, digit by digit. -/
def wordValue (ds : List Digit) : InWords Int :=
  ds.foldlM (fun v d => do checked ((← checked (v * 10)) + d.val)) 0

/-- Numerator and denominator of the magnitude, not reduced. -/
def fraction (e : Expansion) : InWords (Int × Int) := do
  let scale ← powerOfTen e.preperiod.length
  let lead ← wordValue e.preperiod
  if e.period.isEmpty then
    let numerator ← checked ((← checked (e.integerPart * scale)) + lead)
    return (numerator, scale)
  else
    let nines ← unchecked ((← powerOfTen e.period.length) - 1)
    let group ← wordValue e.period
    let denominator ← checked (scale * nines)
    let front ← checked ((← checked (e.integerPart * denominator)) + (← checked (lead * nines)))
    return (← checked (front + group), denominator)

/-- A fraction in lowest terms; nothing can be divided by zero. -/
def quotient (numerator denominator : Int) : InWords Rat :=
  if denominator = 0 then OptionT.lift (.error .zeroDenominator)
  else pure (Rat.divInt numerator denominator)

/-- The rational number an expansion denotes, if its fraction fits words. -/
def ratio (e : Expansion) : InWords Rat := do
  let (numerator, denominator) ← e.fraction
  let signed ← if e.negative then unchecked (-numerator) else pure numerator
  quotient signed denominator

/-- The rational number an expansion denotes, if there is one within words. -/
def toRat? (e : Expansion) : Option Rat :=
  match e.ratio.run with
  | .ok result => result
  | .error _ => none

end Expansion

end Recurrence
