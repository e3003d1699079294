import Recurrence.Expansion.Basic

/-!
# The notation of expansions

`-12.3(45)` is a minus sign, the integer part, a point, the digits before the repetition and the
repeating digits in parentheses. `chars` writes this notation and `ofText` reads it; the reader
also takes an integer part with redundant leading zeros, and nothing else that the writer does not
write.

What the reader finds is noted down field by field first, the start of the repetition apart from the
digits. That it lies inside them is a property of the reader; an expansion has no other.
-/

namespace Recurrence

namespace Expansion

/-- The fractional part with its point; nothing if there are no digits. -/
def fractionChars (preperiod period : List Digit) : List Char :=
  if preperiod.isEmpty && period.isEmpty then []
  else
    '.' :: (Digits.chars preperiod ++
      if period.isEmpty then [] else '(' :: (Digits.chars period ++ [')']))

/-- The notation of an expansion. -/
def chars (e : Expansion) : List Char :=
  (if e.negative then ['-'] else []) ++ natChars e.integerPart
    ++ fractionChars e.preperiod e.period

/-- The notation of an expansion, as text. -/
def text (e : Expansion) : String := String.ofList e.chars

/-- Why a text is no expansion. -/
inductive Fault where
  | missingInteger
  | integerNotDigits
  | integerTooLarge
  | groupNotClosed
  | groupEmpty
  | fractionNotDigits
  | groupNotDigits
  | missingFraction
deriving DecidableEq, Repr

def Fault.message : Fault → String
  | .missingInteger => "missing integer part"
  | .integerNotDigits => "integer part must contain only digits"
  | .integerTooLarge => "integer part is too large"
  | .groupNotClosed => "repeating group must end with ')'"
  | .groupEmpty => "repeating group is empty"
  | .fractionNotDigits => "fraction must contain only digits"
  | .groupNotDigits => "repeating group must contain only digits"
  | .missingFraction => "missing fraction digits after '.'"

/-- The largest integer part: an unsigned word of 64 bits. -/
def maxInteger : Nat := Nat.pow 2 64 - 1

/-- The number, if it may be an integer part. -/
def fitted (n : Nat) : Except Fault Nat :=
  if n ≤ maxInteger then .ok n else .error .integerTooLarge

/-- The value of a digit string, by steps none of which may be too large. -/
def fittedValue (ds : List Digit) : Except Fault Nat :=
  ds.foldlM (fun v d => do fitted ((← fitted (v * 10)) + d.val)) 0

/-- Reads digits. -/
def readDigits (fault : Fault) (cs : List Char) : Except Fault (List Digit) :=
  match Digits.ofChars? cs with
  | none => .error fault
  | some ds => .ok ds

/-- Reads an integer part. -/
def readInteger (cs : List Char) : Except Fault Nat :=
  if cs.isEmpty then .error .missingInteger
  else do fittedValue (← readDigits .integerNotDigits cs)

/-- Reads what stands between the parentheses and the closing one. -/
def readGroup (cs : List Char) : Except Fault (List Char) :=
  if cs.getLast? = some ')' then
    if cs.dropLast.isEmpty then .error .groupEmpty else .ok cs.dropLast
  else .error .groupNotClosed

/-- Cuts what is behind the point at the first opening parenthesis, if there is one. -/
def cutGroup (cs : List Char) : Except Fault (List Char × Option (List Char)) :=
  match cs.dropWhile (· ≠ '(') with
  | [] => .ok (cs, none)
  | _ :: rest => do return (cs.takeWhile (· ≠ '('), some (← readGroup rest))

/-- Reads the digits behind the point, and where their repetition starts. -/
def readFraction (cs : List Char) : Except Fault (List Digit × Option Nat) := do
  let (lead, group) ← cutGroup cs
  let lead ← readDigits .fractionNotDigits lead
  let period ← readDigits .groupNotDigits (group.getD [])
  if (lead ++ period).isEmpty then .error .missingFraction
  else .ok (lead ++ period, group.map fun _ => lead.length)

/-- What a text shows, field by field. -/
structure Reading where
  negative : Bool
  integerPart : Nat
  /-- All fractional digits. -/
  digits : List Digit
  /-- The index of the first repeating digit. -/
  repeatStart : Option Nat
deriving DecidableEq, Repr

/-- The expansion that has these fields. -/
def Reading.expansion (r : Reading) : Expansion :=
  .ofDigits r.negative r.integerPart r.digits r.repeatStart

/-- Reads an expansion without its sign. -/
def readUnsigned (negative : Bool) (cs : List Char) : Except Fault Reading := do
  let integerPart ← readInteger (cs.takeWhile (· ≠ '.'))
  match cs.dropWhile (· ≠ '.') with
  | [] => .ok ⟨negative, integerPart, [], none⟩
  | _ :: rest =>
    let (digits, repeatStart) ← readFraction rest
    .ok ⟨negative, integerPart, digits, repeatStart⟩

/-- Reads the notation of an expansion, field by field. -/
def Reading.ofChars : List Char → Except Fault Reading
  | '-' :: cs => readUnsigned true cs
  | cs => readUnsigned false cs

/-- A text that is no expansion, and why. -/
structure ReadError where
  input : String
  fault : Fault
deriving DecidableEq, Repr

def ReadError.message (e : ReadError) : String :=
  "Invalid expansion. input: '" ++ e.input ++ "', reason: " ++ e.fault.message

/-- Reads the notation of an expansion; an error carries the text that was refused. -/
def ofText (s : String) : Except ReadError Expansion :=
  match Reading.ofChars s.toList with
  | .ok r => .ok r.expansion
  | .error fault => .error ⟨s, fault⟩

end Expansion

end Recurrence
