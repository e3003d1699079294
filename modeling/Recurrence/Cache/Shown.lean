import Recurrence.Cache.Basic

/-!
# Caches as they are shown

A cache is shown with its policy and its entries. The entries of a cache without an order of its
own are shown only while there are fewer than two of them, when every order is the same.
-/

namespace Recurrence.Cache

variable {K V : Type}

/-- Text between braces. -/
def braced (s : String) : String := "\x7b" ++ s ++ "\x7d"

def Slot.shown (value : V → String) : Slot V → String
  | .inFlight => "InFlight"
  | .resolved v => "Resolved(" ++ value v ++ ")"

/-- The entries of a table, between braces. -/
def shownEntries (key : K → String) (value : V → String) (t : Slots K V) : String :=
  braced (", ".intercalate (t.entries.map fun e => key e.1 ++ ": " ++ e.2.shown value))

/-- A cache as it is shown; none where the order of entries would be arbitrary. -/
def shown? (key : K → String) (value : V → String) : Cache K V → Option String
  | .plain slots =>
    if slots.size < 2 then
      some ("Unbounded " ++ braced (" entries: " ++ shownEntries key value slots ++ " "))
    else none
  | .manual slots =>
    if slots.size < 2 then
      some ("Manual " ++ braced (" entries: " ++ shownEntries key value slots ++ " "))
    else none
  | .lru c =>
    some ("Lru " ++ braced (" entries: " ++ shownEntries key value c.slots
      ++ ", capacity: " ++ natText c.capacity ++ " "))
  | .ttl _ _ => none

end Recurrence.Cache
