import Recurrence.Cache.Table

/-!
# Slots

What a cache holds for a key: a mark that the key is being computed, or its result. The mark is what
catches a computation that asks for itself, so nothing but the end of that computation may remove
it.
-/

namespace Recurrence.Cache

/-- What is held for a key. -/
inductive Slot (V : Type) where
  /-- The key is being computed. -/
  | inFlight
  | resolved (value : V)
deriving DecidableEq, Repr

/-- The answer to the question for a key. -/
inductive Lookup (V : Type) where
  | absent
  | inFlight
  | hit (value : V)
deriving DecidableEq, Repr

def Slot.isInFlight {V : Type} : Slot V → Bool
  | .inFlight => true
  | .resolved _ => false

/-- The slots of a cache. -/
abbrev Slots (K V : Type) := Table K (Slot V)

namespace Slots

variable {K V : Type} [DecidableEq K]

/-- The answer of slots whose results are good for ever. -/
def lookup (t : Slots K V) (key : K) : Lookup V :=
  match t.find? key with
  | none => .absent
  | some .inFlight => .inFlight
  | some (.resolved v) => .hit v

/-- Marks a key as being computed, whatever was held for it. -/
def begin (t : Slots K V) (key : K) : Slots K V := t.put key .inFlight

/-- Holds a result for a key. -/
def resolve (t : Slots K V) (key : K) (value : V) : Slots K V := t.put key (.resolved value)

/-- Takes back the mark of a key; a result stays. -/
def abandon (t : Slots K V) (key : K) : Slots K V :=
  match t.find? key with
  | some .inFlight => t.erase key
  | _ => t

/-- Is a result held for the key? -/
def contains (t : Slots K V) (key : K) : Bool :=
  match t.find? key with
  | some (.resolved _) => true
  | _ => false

/-- Drops all results. -/
def clear (t : Slots K V) : Slots K V := t.filter fun e => e.2.isInFlight

/-- Drops the result of a key, if there is one. -/
def invalidate (t : Slots K V) (key : K) : Slots K V :=
  if t.contains key then t.erase key else t

end Slots

end Recurrence.Cache
