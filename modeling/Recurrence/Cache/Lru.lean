import Recurrence.Cache.Slot

/-!
# The most recently used results

The order of the table is the order of use, the latest at the end. A lookup that hits and a result
that arrives move their key to the end; then results go from the front until the capacity is met.
Marks are never evicted, and neither is the result that has just arrived, so the cache may be over
its capacity while many computations are in flight.
-/

namespace Recurrence.Cache

/-- A cache of bounded size. -/
structure Lru (K V : Type) where
  slots : Slots K V
  capacity : Nat

namespace Lru

variable {K V : Type}

/-- Drops `excess` results from the front, as far as there are any before the last entry. Gives the
dropped keys and the entries that stay. -/
def evict : (excess : Nat) → List (K × Slot V) → List K × List (K × Slot V)
  | 0, es => ([], es)
  | _, [] => ([], [])
  | _, [e] => ([], [e])
  | excess + 1, (k, .inFlight) :: rest =>
    let (gone, kept) := evict (excess + 1) rest
    (gone, (k, .inFlight) :: kept)
  | excess + 1, (k, .resolved _) :: rest =>
    let (gone, kept) := evict excess rest
    (k :: gone, kept)

theorem evict_sublist (excess : Nat) (es : List (K × Slot V)) :
    (evict excess es).2.Sublist es := by
  fun_induction evict excess es with
  | case1 | case2 | case3 => exact List.Sublist.refl _
  | case4 excess k rest _ gone kept h ih => rw [h] at ih; exact ih.cons_cons _
  | case5 excess k v rest _ gone kept h ih => rw [h] at ih; exact ih.cons _

variable [DecidableEq K]

def new (capacity : Nat) : Lru K V := ⟨.empty, capacity⟩

/-- A hit makes its key the most recently used one. -/
def lookup (c : Lru K V) (key : K) : Lookup V × Lru K V :=
  match c.slots.find? key with
  | none => (.absent, c)
  | some .inFlight => (.inFlight, c)
  | some (.resolved v) => (.hit v, { c with slots := c.slots.putLast key (.resolved v) })

/-- A mark takes the place of what was held for the key. -/
def begin (c : Lru K V) (key : K) : Lru K V := { c with slots := c.slots.begin key }

def abandon (c : Lru K V) (key : K) : Lru K V := { c with slots := c.slots.abandon key }

/-- Holds a result; the second answer are the keys evicted for it, the least recently used first. -/
def resolve (c : Lru K V) (key : K) (value : V) : Lru K V × List K :=
  let slots := c.slots.putLast key (.resolved value)
  let sorted := evict (slots.size - c.capacity) slots.entries
  ({ c with slots := slots.restrict sorted.2 (evict_sublist _ _) }, sorted.1)

end Lru

end Recurrence.Cache
