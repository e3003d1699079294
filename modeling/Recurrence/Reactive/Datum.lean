import Recurrence.Decimal.Layout
import Recurrence.Text.Quoted

/-!
# Data in cells

Numbers, texts and lists of them. Floating-point numbers are compared as numbers: the two zeros are
equal, and what is no number differs from everything, itself included, so a node that has such an
input is never up to date.
-/

namespace Recurrence.Reactive

/-- A value in a cell. -/
inductive Datum where
  | int (n : Int64)
  | float (bits : UInt64)
  | text (s : String)
  | list (items : List Datum)

namespace Datum

instance : Inhabited Datum := ⟨.int 0⟩

/-- Are two floating-point numbers equal as numbers? -/
def sameFloat (a b : UInt64) : Bool :=
  match Decimal.Binary.ofBits a, Decimal.Binary.ofBits b with
  | .nan, _ | _, .nan => false
  | .zero _, .zero _ => true
  | _, _ => a == b

mutual

/-- Are two data equal? Data of different kinds never are. -/
def same : Datum → Datum → Bool
  | .int a, .int b => a == b
  | .float a, .float b => sameFloat a b
  | .text a, .text b => a == b
  | .list as, .list bs => sameAll as bs
  | _, _ => false

/-- Are two lists of data equal? -/
def sameAll : List Datum → List Datum → Bool
  | [], [] => true
  | a :: as, b :: bs => same a b && sameAll as bs
  | _, _ => false

end

instance : BEq Datum := ⟨same⟩

mutual

/-- A datum as it is shown. -/
def shown : Datum → List Char
  | .int n => intChars n.toInt
  | .float bits => Decimal.shownLayout.chars (.ofBits bits)
  | .text s => Text.quoteShown s.toList
  | .list items => '[' :: (shownAll items ++ [']'])

/-- Data with commas between them, as they are shown. -/
def shownAll : List Datum → List Char
  | [] => []
  | [d] => shown d
  | d :: ds => shown d ++ [',', ' '] ++ shownAll ds

end

/-- A cell as it is shown. -/
def cellText (content : Datum) : String := "Value(" ++ String.ofList content.shown ++ ")"

end Datum

end Recurrence.Reactive
