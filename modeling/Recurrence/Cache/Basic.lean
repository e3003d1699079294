import Recurrence.Cache.Lru
import Recurrence.Cache.Ttl
import Recurrence.Decimal.Digits
import Recurrence.Log

/-!
# Caches

A cache remembers results by key under one of four policies: for ever, until they are dropped by
hand, for a time, or while they are among the most recently used. All four keep the same marks for
keys that are being computed. Each operation also tells what the cache did beyond its answer.
-/

namespace Recurrence

namespace Cache

/-- How long results are kept. -/
inductive Policy where
  | plain
  | manual
  | ttl (hand : Clock.Hand) (ttl : Duration)
  | lru (capacity : Nat)
deriving DecidableEq, Repr

/-- What a cache did on its own account. -/
inductive Event (K : Type) where
  | expired (key : K)
  | pruned (count : Nat)
  | evicted (key : K)
  | cleared (entries : Nat)
  | invalidated (key : K)
deriving DecidableEq, Repr

/-- The log line of an event, for a way to show keys. -/
def Event.line {K : Type} (shown : K → String) : Event K → Log.Line
  | .expired key => ⟨.debug, "Entry expired. key: " ++ shown key⟩
  | .pruned count => ⟨.debug, "Pruned expired entries. removed: " ++ natText count⟩
  | .evicted key => ⟨.debug, "Evicted least-recently-used entry. key: " ++ shown key⟩
  | .cleared entries => ⟨.debug, "Clearing cache. entries: " ++ natText entries⟩
  | .invalidated key => ⟨.debug, "Invalidated entry. key: " ++ shown key⟩

end Cache

/-- Remembered results and marks. -/
inductive Cache (K V : Type) where
  | plain (slots : Cache.Slots K V)
  | manual (slots : Cache.Slots K V)
  | ttl (hand : Clock.Hand) (cache : Cache.Ttl K V)
  | lru (cache : Cache.Lru K V)

namespace Cache

variable {K V : Type} [DecidableEq K]

/-- The empty cache of a policy. -/
def Policy.cache : Policy → Cache K V
  | .plain => .plain .empty
  | .manual => .manual .empty
  | .ttl hand d => .ttl hand (.new d)
  | .lru capacity => .lru (.new capacity)

/-- Asks for a key. -/
def lookup (c : Cache K V) (clock : Clock) (key : K) : Lookup V × Cache K V × List (Event K) :=
  match c with
  | .plain slots => (slots.lookup key, .plain slots, [])
  | .manual slots => (slots.lookup key, .manual slots, [])
  | .ttl hand timed =>
    let now := clock.read hand
    let events := if timed.holdsExpired now key then [.expired key] else []
    (timed.lookup now key, .ttl hand timed, events)
  | .lru recent =>
    let (found, recent) := recent.lookup key
    (found, .lru recent, [])

/-- Marks a key as being computed. -/
def begin (c : Cache K V) (key : K) : Cache K V :=
  match c with
  | .plain slots => .plain (slots.begin key)
  | .manual slots => .manual (slots.begin key)
  | .ttl hand timed => .ttl hand (timed.begin key)
  | .lru recent => .lru (recent.begin key)

/-- Holds a result for a key. -/
def resolve (c : Cache K V) (clock : Clock) (key : K) (value : V) : Cache K V × List (Event K) :=
  match c with
  | .plain slots => (.plain (slots.resolve key value), [])
  | .manual slots => (.manual (slots.resolve key value), [])
  | .ttl hand timed =>
    let (timed, dropped) := timed.resolve (clock.read hand) key value
    (.ttl hand timed, dropped.elim [] fun n => [.pruned n])
  | .lru recent =>
    let (recent, gone) := recent.resolve key value
    (.lru recent, gone.map .evicted)

/-- Takes back the mark of a key. -/
def abandon (c : Cache K V) (key : K) : Cache K V :=
  match c with
  | .plain slots => .plain (slots.abandon key)
  | .manual slots => .manual (slots.abandon key)
  | .ttl hand timed => .ttl hand (timed.abandon key)
  | .lru recent => .lru (recent.abandon key)

/-- Is a result that is still good held for the key? -/
def contains (c : Cache K V) (clock : Clock) (key : K) : Bool :=
  match c with
  | .plain slots | .manual slots | .lru ⟨slots, _⟩ => slots.contains key
  | .ttl hand timed => timed.contains (clock.read hand) key

/-- How many keys are held, marks and expired results included. -/
def size (c : Cache K V) : Nat :=
  match c with
  | .plain slots | .manual slots | .lru ⟨slots, _⟩ => slots.size
  | .ttl _ timed => timed.slots.size

/-- Drops all results by hand; only a manual cache does that. -/
def clear (c : Cache K V) : Cache K V × List (Event K) :=
  match c with
  | .manual slots => (.manual slots.clear, [.cleared slots.size])
  | c => (c, [])

/-- Drops the result of a key by hand; only a manual cache does that. -/
def invalidate (c : Cache K V) (key : K) : Cache K V × List (Event K) :=
  match c with
  | .manual slots =>
    (.manual (slots.invalidate key), if slots.contains key then [.invalidated key] else [])
  | c => (c, [])

end Cache

end Recurrence
