import Recurrence.Decimal.Digits

/-!
# The fewest digits that read back

A binary floating-point number stands for all reals that round to it: an interval whose ends lie
halfway to its two neighbours. Its decimal is the one with the fewest digits inside that interval,
and the nearest of those to the number itself. Everything is computed exactly, on natural numbers:
for each count of digits the two neighbours of the number on that decimal grid are tested.
-/

namespace Recurrence.Decimal

/-- A finite positive number of 64 bits, `mantissa * 2 ^ exponent`. -/
structure Dyadic where
  mantissa : Nat
  exponent : Int
  /-- The number below is only half as far away as the number above. -/
  narrowBelow : Bool
deriving DecidableEq, Repr

/-- What 64 bits stand for. -/
inductive Binary where
  | nan
  | infinite (negative : Bool)
  | zero (negative : Bool)
  | finite (negative : Bool) (magnitude : Dyadic)
deriving DecidableEq, Repr

/-- Decodes 64 bits: a sign, eleven bits of exponent, 52 bits of fraction. -/
def Binary.ofBits (bits : UInt64) : Binary :=
  let n := bits.toNat
  let negative := n / Nat.pow 2 63 = 1
  let exponent : Nat := n / Nat.pow 2 52 % Nat.pow 2 11
  let fraction : Nat := n % Nat.pow 2 52
  if exponent = 2047 then
    if fraction = 0 then .infinite negative else .nan
  else if exponent = 0 then
    if fraction = 0 then .zero negative else .finite negative ⟨fraction, -1074, false⟩
  else
    .finite negative ⟨Nat.pow 2 52 + fraction, (exponent : Int) - 1075, fraction = 0 ∧ 1 < exponent⟩

/-- The 64 bits with the value of 32 bits: each number of the narrow format is one of the wide. -/
def widen (bits : UInt32) : UInt64 :=
  let n := bits.toNat
  let sign := n / Nat.pow 2 31 * Nat.pow 2 63
  let exponent := n / Nat.pow 2 23 % Nat.pow 2 8
  let fraction := n % Nat.pow 2 23
  let wide :=
    if exponent = 255 then 2047 * Nat.pow 2 52 + fraction * Nat.pow 2 29
    else if exponent = 0 then
      if fraction = 0 then 0
      else
        -- A number below the normal range of the narrow format is normal in the wide one.
        let top := Nat.log2 fraction
        (top + 874) * Nat.pow 2 52 + (fraction * Nat.pow 2 (52 - top) - Nat.pow 2 52)
    else (exponent + 896) * Nat.pow 2 52 + fraction * Nat.pow 2 29
  UInt64.ofNat (sign + wide)

/-- A decimal number, `digits * 10 ^ exponent`. -/
structure Scaled where
  digits : Nat
  exponent : Int
deriving DecidableEq, Repr

/-- Compares `s` with `n * 2 ^ e`. -/
def Scaled.compareTo (s : Scaled) (n : Nat) (e : Int) : Ordering :=
  compare (s.digits * Nat.pow 10 s.exponent.toNat * Nat.pow 2 (-e).toNat)
    (n * Nat.pow 2 e.toNat * Nat.pow 10 (-s.exponent).toNat)

/-- Does `s` lie among the reals that round to `x`? The ends do exactly when the mantissa is even,
since a number halfway between two others rounds to the even one. -/
def Dyadic.readsBack (x : Dyadic) (s : Scaled) : Bool :=
  let below := if x.narrowBelow then 4 * x.mantissa - 1 else 4 * x.mantissa - 2
  let above := 4 * x.mantissa + 2
  let ends := x.mantissa % 2 = 0
  (match s.compareTo below (x.exponent - 2) with | .gt => true | .eq => ends | .lt => false) &&
    (match s.compareTo above (x.exponent - 2) with | .lt => true | .eq => ends | .gt => false)

/-- The exponent of the least power of ten above `x`. -/
def Dyadic.scale (x : Dyadic) : Int :=
  let numerator := x.mantissa * Nat.pow 2 x.exponent.toNat
  let denominator := Nat.pow 2 (-x.exponent).toNat
  if denominator ≤ numerator then ((Digits.ofNat (numerator / denominator)).length : Int)
  else
    -- The least `j` with `10 ^ j * x ≥ 1` counts the digits of `⌈1 / x⌉ - 1`.
    1 - ((Digits.ofNat ((denominator - 1) / numerator)).length : Int)

/-- The greatest multiple of `10 ^ e` that is not above `x`, divided by `10 ^ e`. -/
def Dyadic.floorAt (x : Dyadic) (e : Int) : Nat :=
  (x.mantissa * Nat.pow 2 x.exponent.toNat * Nat.pow 10 (-e).toNat)
    / (Nat.pow 2 (-x.exponent).toNat * Nat.pow 10 e.toNat)

/-- Which of two equally near decimals is taken. -/
inductive Tie where
  | toEven
  | up
deriving DecidableEq, Repr

/-- The decimal of the grid `10 ^ e` for `x`: the nearer one of the neighbours that read back. -/
def Dyadic.onGrid? (tie : Tie) (x : Dyadic) (e : Int) : Option Scaled :=
  let low : Scaled := ⟨x.floorAt e, e⟩
  let high : Scaled := ⟨x.floorAt e + 1, e⟩
  match x.readsBack low, x.readsBack high with
  | true, false => some low
  | false, true => some high
  | false, false => none
  | true, true =>
    -- The middle of the two against `x` itself.
    match Scaled.compareTo ⟨2 * low.digits + 1, e⟩ x.mantissa (x.exponent + 1) with
    | .gt => some low
    | .lt => some high
    | .eq => if tie = .toEven ∧ low.digits % 2 = 0 then some low else some high

/-- The exact decimal of `x`. -/
def Dyadic.exact (x : Dyadic) : Scaled :=
  ⟨x.mantissa * Nat.pow 2 x.exponent.toNat * Nat.pow 5 (-x.exponent).toNat, min x.exponent 0⟩

/-- Moves trailing zeros into the exponent. -/
def Scaled.trim (s : Scaled) : Scaled :=
  if s.digits = 0 ∨ s.digits % 10 ≠ 0 then s else Scaled.trim ⟨s.digits / 10, s.exponent + 1⟩
termination_by s.digits
decreasing_by omega

/-- The shortest decimal that reads back as `x`; seventeen digits are always enough. -/
def Dyadic.shortest (tie : Tie) (x : Dyadic) : Scaled :=
  let scale := x.scale
  (((List.range 17).findSome? fun (n : Nat) =>
    x.onGrid? tie (scale - (n + 1 : Int))).getD x.exact).trim

end Recurrence.Decimal
