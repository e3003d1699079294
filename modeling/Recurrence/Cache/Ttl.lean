import Recurrence.Cache.Slot
import Recurrence.Clock

/-!
# Results with a time to live

A result is good strictly before its expiry. A lookup leaves an expired result where it is; results
that have expired are dropped together when the next result arrives, and only if one can have
expired at all: `nextExpiry` is never later than the earliest expiry held.
-/

namespace Recurrence.Cache

/-- A result and the time from which on it is no longer good; without one it always is. -/
structure Dated (V : Type) where
  value : V
  expiry : Option Instant
deriving DecidableEq, Repr

/-- Has the time come? -/
def Dated.isExpired {V : Type} (d : Dated V) (now : Instant) : Bool :=
  match d.expiry with
  | none => false
  | some t => t.nanos ≤ now.nanos

/-- A cache whose results expire. -/
structure Ttl (K V : Type) where
  slots : Slots K (Dated V)
  ttl : Duration
  nextExpiry : Option Instant

namespace Ttl

variable {K V : Type} [DecidableEq K]

def new (ttl : Duration) : Ttl K V := ⟨.empty, ttl, none⟩

/-- Is an expired result held for the key? -/
def holdsExpired (c : Ttl K V) (now : Instant) (key : K) : Bool :=
  match c.slots.find? key with
  | some (.resolved d) => d.isExpired now
  | _ => false

def lookup (c : Ttl K V) (now : Instant) (key : K) : Lookup V :=
  match c.slots.lookup key with
  | .absent => .absent
  | .inFlight => .inFlight
  | .hit d => if d.isExpired now then .absent else .hit d.value

def begin (c : Ttl K V) (key : K) : Ttl K V := { c with slots := c.slots.begin key }

def abandon (c : Ttl K V) (key : K) : Ttl K V := { c with slots := c.slots.abandon key }

def contains (c : Ttl K V) (now : Instant) (key : K) : Bool :=
  match c.slots.find? key with
  | some (.resolved d) => !d.isExpired now
  | _ => false

/-- Does an entry hold an expired result? -/
def isStale (now : Instant) (e : K × Slot (Dated V)) : Bool :=
  match e.2 with
  | .inFlight => false
  | .resolved d => d.isExpired now

/-- The earliest expiry among entries. -/
def earliest (es : List (K × Slot (Dated V))) : Option Instant :=
  es.foldl (fun found e =>
    match e.2 with
    | .resolved ⟨_, some t⟩ => some (found.elim t (·.earlier t))
    | _ => found) none

/-- Must expired results be looked for? -/
def isDue (c : Ttl K V) (now : Instant) : Bool :=
  match c.nextExpiry with
  | none => false
  | some t => t.nanos ≤ now.nanos

/-- Drops the expired results. -/
def prune (c : Ttl K V) (now : Instant) : Ttl K V :=
  let slots := c.slots.filter fun e => !isStale now e
  { c with slots, nextExpiry := earliest slots.entries }

/-- Holds a result from now on; the second answer is how many results were dropped for it, if
expired ones were looked for. -/
def resolve (c : Ttl K V) (now : Instant) (key : K) (value : V) : Ttl K V × Option Nat :=
  let kept := if c.isDue now then c.prune now else c
  let expiry := now.add? c.ttl
  ({ kept with
      slots := kept.slots.resolve key ⟨value, expiry⟩
      nextExpiry :=
        match expiry, kept.nextExpiry with
        | none, next => next
        | some t, none => some t
        | some t, some next => some (next.earlier t) },
    if c.isDue now then some (c.slots.size - kept.slots.size) else none)

end Ttl

end Recurrence.Cache
