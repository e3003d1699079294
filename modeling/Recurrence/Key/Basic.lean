import Recurrence.Key.Encoding

/-!
# Keys

The arguments by which results are remembered. Keys are compared part by part; a canonical key
stands for a structured argument and is compared by its canonical text.
-/

namespace Recurrence

/-- What a result is remembered by. -/
inductive Key where
  | unit
  | bool (b : Bool)
  | int (n : Int64)
  | text (s : String)
  | list (ks : List Key)
  | tuple (ks : List Key)
  | present (k : Key)
  /-- The canonical text of a structured argument. -/
  | canonical (encoded : String)

namespace Key

/-- The key of a structured argument. -/
def ofArgument (a : Argument) (f : Canonical.Format := .json) : Except EncodeError Key := do
  return .canonical (String.ofList (← a.encode f))

mutual

/-- Are two keys the same, part by part? -/
def same : Key → Key → Bool
  | .unit, .unit => true
  | .bool a, .bool b => a == b
  | .int a, .int b => a == b
  | .text a, .text b => a == b
  | .list as, .list bs => sameAll as bs
  | .tuple as, .tuple bs => sameAll as bs
  | .present a, .present b => same a b
  | .canonical a, .canonical b => a == b
  | _, _ => false

/-- Are two lists of keys the same? -/
def sameAll : List Key → List Key → Bool
  | [], [] => true
  | a :: as, b :: bs => same a b && sameAll as bs
  | _, _ => false

end

mutual

theorem same_eq_true (a b : Key) : same a b = true ↔ a = b := by
  cases a <;> cases b <;> simp [same, sameAll_eq_true, same_eq_true]

theorem sameAll_eq_true (as bs : List Key) : sameAll as bs = true ↔ as = bs := by
  cases as <;> cases bs <;> simp [sameAll, sameAll_eq_true, same_eq_true]

end

instance : DecidableEq Key := fun a b =>
  if h : same a b = true then .isTrue ((same_eq_true a b).1 h)
  else .isFalse fun he => h ((same_eq_true a b).2 he)

mutual

/-- A key as it is shown to people. -/
def shown : Key → List Char
  | .unit => "()".toList
  | .bool b => if b then "true".toList else "false".toList
  | .int n => intChars n.toInt
  | .text s => Text.quoteShown s.toList
  | .list ks => '[' :: (shownAll ks ++ [']'])
  -- A tuple of one keeps its comma, which tells it from a key in parentheses.
  | .tuple [k] => '(' :: (shown k ++ [',', ')'])
  | .tuple ks => '(' :: (shownAll ks ++ [')'])
  | .present k => "Some(".toList ++ shown k ++ [')']
  | .canonical encoded => encoded.toList

/-- Keys with commas between them, as they are shown. -/
def shownAll : List Key → List Char
  | [] => []
  | [k] => shown k
  | k :: ks => shown k ++ [',', ' '] ++ shownAll ks

end

/-- A key as it is shown to people, as text. -/
def shownText (k : Key) : String := String.ofList k.shown

instance : Hashable Key := ⟨fun k => hash k.shownText⟩

/-- The number of an integer key; other keys count as zero. -/
def number : Key → Int64
  | .int n => n
  | _ => 0

end Key

end Recurrence
