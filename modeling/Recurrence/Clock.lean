/-!
# Clocks

Time is counted in nanoseconds. A point in time has a signed word of 64 bits for its seconds, so
not every sum of a point and a duration is a point again. Two hands are read: a manual one that
moves only when told to, and a monotonic one that the outside sets.
-/

namespace Recurrence

/-- A length of time. -/
structure Duration where
  nanos : Nat
deriving DecidableEq, Repr

/-- A point in time. -/
structure Instant where
  nanos : Nat
deriving DecidableEq, Repr

namespace Duration

/-- How many nanoseconds there are in a second. -/
def perSecond : Nat := 1000000000

/-- Whole seconds and the nanoseconds beyond them. -/
def ofParts (seconds nanos : Nat) : Duration := ⟨seconds * perSecond + nanos⟩

def ofMillis (millis : Nat) : Duration := ⟨millis * 1000000⟩

def seconds (d : Duration) : Nat := d.nanos / perSecond

def subsecond (d : Duration) : Nat := d.nanos % perSecond

end Duration

namespace Instant

/-- The first nanosecond that is out of reach. -/
def limit : Nat := Nat.pow 2 63 * Duration.perSecond

/-- The point a duration later, if it can be represented. -/
def add? (t : Instant) (d : Duration) : Option Instant :=
  if t.nanos + d.nanos < limit then some ⟨t.nanos + d.nanos⟩ else none

/-- The earlier of two points. -/
def earlier (s t : Instant) : Instant := if s.nanos ≤ t.nanos then s else t

end Instant

/-- What the hands of the clock show. -/
structure Clock where
  manual : Instant
  monotonic : Instant
deriving DecidableEq, Repr

namespace Clock

/-- The hand a cache reads. -/
inductive Hand where
  | manual
  | monotonic
deriving DecidableEq, Repr

/-- Both hands at the origin. -/
def start : Clock := ⟨⟨0⟩, ⟨0⟩⟩

def read (c : Clock) : Hand → Instant
  | .manual => c.manual
  | .monotonic => c.monotonic

/-- Moves the manual hand, if it can go that far. -/
def advance? (c : Clock) (d : Duration) : Option Clock :=
  (c.manual.add? d).map fun t => { c with manual := t }

end Clock

end Recurrence
