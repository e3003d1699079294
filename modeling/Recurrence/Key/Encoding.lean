import Recurrence.Decimal.Layout
import Recurrence.Key.Argument
import Recurrence.Text.Quoted

/-!
# The canonical text of an argument

Two arguments are the same key when their canonical texts are equal. The text looks like JSON.
Sequences keep their order; the entries of a map and the fields of a structure are sorted by their
texts, so their order in the argument does not matter. A variant is a map from its name to its
content. How texts are quoted and how finite floating-point numbers are written is left to a
`Format`; all the rest is decided here.
-/

namespace Recurrence

/-- Why an argument has no canonical text. -/
inductive EncodeError where
  /-- A part failed by itself. -/
  | failing (reason : String)
  /-- A map handed over a value while no key was waiting for one. -/
  | valueWithoutKey
deriving DecidableEq, Repr

def EncodeError.reason : EncodeError → String
  | .failing reason => reason
  | .valueWithoutKey => "map value without a key"

def EncodeError.message (e : EncodeError) : String :=
  "Arguments cannot be encoded as a key. reason: " ++ e.reason

namespace Canonical

/-- How texts are quoted and finite floating-point numbers are written. -/
structure Format where
  quote : List Char → List Char
  number : Decimal.Binary → List Char

namespace Format

/-- The format of keys. -/
def json : Format := ⟨Text.quoteKey, Decimal.keyLayout.chars⟩

/-- The text of a floating-point number. What is not finite, which JSON cannot write, gets a bare
word of its own. -/
def float (f : Format) : Decimal.Binary → List Char
  | .nan => Decimal.keyLayout.nan
  | .infinite negative => Decimal.Layout.signed negative Decimal.keyLayout.infinity
  | .zero negative => f.number (.zero negative)
  | .finite negative x => f.number (.finite negative x)

end Format

/-- The texts of a map's key and value. -/
abbrev Entry := List Char × List Char

/-- The order of texts: character by character, a beginning before the whole. -/
def precedes : List Char → List Char → Bool
  | [], _ => true
  | _ :: _, [] => false
  | a :: as, b :: bs => a < b || (a == b && precedes as bs)

/-- The order of entries: by key, then by value. -/
def Entry.precedes (a b : Entry) : Bool :=
  if a.1 = b.1 then Canonical.precedes a.2 b.2 else Canonical.precedes a.1 b.1

/-- Texts with commas between them. -/
def joined (texts : List (List Char)) : List Char := [','].intercalate texts

def listText (items : List (List Char)) : List Char := '[' :: (joined items ++ [']'])

def entryText (e : Entry) : List Char := e.1 ++ ':' :: e.2

/-- The text of a map: its entries in order. -/
def mapText (entries : List Entry) : List Char :=
  '\x7b' :: (joined ((entries.mergeSort Entry.precedes).map entryText) ++ ['\x7d'])

/-- The content of a variant under the variant's name. -/
def variantText (f : Format) (variant : String) (content : List Char) : List Char :=
  mapText [(f.quote variant.toList, content)]

end Canonical

open Canonical

mutual

/-- The canonical text of an argument, or the first failure in the order of its parts. -/
def Argument.encode (f : Format := .json) : Argument → Except EncodeError (List Char)
  | .unit | .unitStruct _ | .absent => .ok "null".toList
  | .bool b => .ok (if b then "true".toList else "false".toList)
  | .int n => .ok (intChars n)
  | .float32 bits => .ok (f.float (.ofBits (Decimal.widen bits)))
  | .float64 bits => .ok (f.float (.ofBits bits))
  | .char c => .ok (f.quote [c])
  | .text s | .unitVariant s => .ok (f.quote s.toList)
  | .bytes bs => .ok (listText (bs.map fun b => natChars b.toNat))
  | .present a | .newtypeStruct _ a => a.encode f
  | .seq items | .tuple items | .tupleStruct _ items => do
    return listText (← Argument.encodeItems f items)
  | .map parts => do return mapText (← Argument.encodeParts f none parts)
  | .struct _ fields => do return mapText (← Argument.encodeFields f fields)
  | .newtypeVariant variant a => do return variantText f variant (← a.encode f)
  | .tupleVariant variant items => do
    return variantText f variant (listText (← Argument.encodeItems f items))
  | .structVariant variant fields => do
    return variantText f variant (mapText (← Argument.encodeFields f fields))
  | .failing reason => .error (.failing reason)

/-- The texts of a sequence's items. -/
def Argument.encodeItems (f : Format) : List Argument → Except EncodeError (List (List Char))
  | [] => .ok []
  | a :: rest => do return (← a.encode f) :: (← Argument.encodeItems f rest)

/-- The entries of a structure: the names of its fields are the keys. -/
def Argument.encodeFields (f : Format) : List Argument.Field → Except EncodeError (List Entry)
  | [] => .ok []
  | .mk name a :: rest => do
    return (f.quote name.toList, ← a.encode f) :: (← Argument.encodeFields f rest)

/--
The entries of a stream of keys and values, given the key that waits for its value. A second key
replaces the one that waits, and a key that still waits at the end is dropped.
-/
def Argument.encodeParts (f : Format) :
    (waiting : Option (List Char)) → List Argument.Part → Except EncodeError (List Entry)
  | _, [] => .ok []
  | _, .key k :: rest => do Argument.encodeParts f (some (← k.encode f)) rest
  | none, .value _ :: _ => .error .valueWithoutKey
  | some key, .value v :: rest => do
    return (key, ← v.encode f) :: (← Argument.encodeParts f none rest)

end

end Recurrence
