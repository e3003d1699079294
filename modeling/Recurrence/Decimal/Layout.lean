import Recurrence.Decimal.Shortest

/-!
# Decimals as text

A decimal is written positionally, with at least one digit on each side of the point, or as a
number with one digit before the point and a power of ten. A `Layout` holds all that a format
decides about this.
-/

namespace Recurrence.Decimal

/-- The decisions of a format. -/
structure Layout where
  /-- The least exponent of the leading digit for which a number is written positionally. -/
  plainFrom : Int
  /-- The least exponent of the leading digit for which it no longer is. -/
  plainBelow : Int
  /-- The sign of an exponent that is not negative. -/
  plusSign : List Char
  tie : Tie
  nan : List Char
  infinity : List Char

namespace Layout

/-- Digits with a power of ten: `12` and `17` are `1.2e18`. -/
def scientific (l : Layout) (ds : List Char) (leading : Int) : List Char :=
  ds.take 1 ++ (if ds.length ≤ 1 then [] else '.' :: ds.drop 1)
    ++ 'e' :: ((if leading < 0 then [] else l.plusSign) ++ intChars leading)

/-- Digits with a point behind, inside or in front of them. -/
def positional (ds : List Char) (leading : Int) : List Char :=
  if leading < 0 then
    '0' :: '.' :: (List.replicate ((-leading).toNat - 1) '0' ++ ds)
  else
    let whole := leading.toNat + 1
    if ds.length ≤ whole then ds ++ List.replicate (whole - ds.length) '0' ++ ['.', '0']
    else ds.take whole ++ '.' :: ds.drop whole

/-- A positive decimal. -/
def magnitude (l : Layout) (s : Scaled) : List Char :=
  let ds := natChars s.digits
  let leading := s.exponent + ds.length - 1
  if l.plainFrom ≤ leading ∧ leading < l.plainBelow then positional ds leading
  else l.scientific ds leading

def signed (negative : Bool) (cs : List Char) : List Char :=
  if negative then '-' :: cs else cs

/-- The text of a binary number; a zero keeps its sign, and what is no number has none. -/
def chars (l : Layout) : Binary → List Char
  | .nan => l.nan
  | .infinite negative => signed negative l.infinity
  | .zero negative => signed negative ['0', '.', '0']
  | .finite negative x => signed negative (l.magnitude (x.shortest l.tie))

end Layout

/-- Numbers in keys. -/
def keyLayout : Layout where
  plainFrom := -5
  plainBelow := 16
  plusSign := ['+']
  tie := .toEven
  nan := "NaN".toList
  infinity := "Infinity".toList

/-- Numbers that are shown to people. -/
def shownLayout : Layout where
  plainFrom := -4
  plainBelow := 16
  plusSign := []
  tie := .up
  nan := "NaN".toList
  infinity := "inf".toList

end Recurrence.Decimal
