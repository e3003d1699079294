/-!
# Structured arguments

What a computation may be called with: any value that is handed over part by part, the way data
formats receive it. A map is the stream of its parts, since a caller may hand over keys and values
in any order; a well-behaved one alternates them.
-/

namespace Recurrence

mutual

/-- A structured value. -/
inductive Argument where
  | unit
  | bool (b : Bool)
  | int (n : Int)
  /-- A floating-point number of 32 bits. -/
  | float32 (bits : UInt32)
  /-- A floating-point number of 64 bits. -/
  | float64 (bits : UInt64)
  | char (c : Char)
  | text (s : String)
  | bytes (bs : List UInt8)
  | absent
  | present (a : Argument)
  | seq (items : List Argument)
  | tuple (items : List Argument)
  | map (parts : List Argument.Part)
  | unitStruct (name : String)
  | newtypeStruct (name : String) (a : Argument)
  | tupleStruct (name : String) (items : List Argument)
  | struct (name : String) (fields : List Argument.Field)
  | unitVariant (variant : String)
  | newtypeVariant (variant : String) (a : Argument)
  | tupleVariant (variant : String) (items : List Argument)
  | structVariant (variant : String) (fields : List Argument.Field)
  /-- A part that cannot be handed over. -/
  | failing (reason : String)

/-- A named field. -/
inductive Argument.Field where
  | mk (name : String) (value : Argument)

/-- A part of a map: a key, or a value for the key before it. -/
inductive Argument.Part where
  | key (a : Argument)
  | value (a : Argument)

end

namespace Argument

/-- A map handed over entry by entry. -/
def ofEntries (entries : List (Argument × Argument)) : Argument :=
  .map (entries.flatMap fun (k, v) => [.key k, .value v])

/-- A value wrapped `n` times in a sequence of one item. -/
def nested : Nat → Argument → Argument
  | 0, a => a
  | n + 1, a => .seq [nested n a]

end Argument

end Recurrence
