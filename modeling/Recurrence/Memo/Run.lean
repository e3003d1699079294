import Recurrence.Cache.Basic
import Recurrence.Memo.Computation

/-!
# Calls

A call looks its key up. A result that is held is the answer; a mark means that the key is being
computed further down the stack, and the call is refused; otherwise the key is marked, its
computation runs, and its end turns the mark into a result or takes it back. A computation that is
unwound reaches neither end, and its mark stays.

The stack of calls is what fuel counts: `call` with fuel `f` runs at most `f` computations inside
each other.
-/

namespace Recurrence

namespace Memo

/-- What happened, as far as the log tells. -/
inductive Event (K : Type) where
  | hit (key : K)
  | rejected (key : K)
  | missed (key : K)
  | cache (event : Cache.Event K)
deriving DecidableEq, Repr

def Event.line {K : Type} (shown : K → String) : Event K → Log.Line
  | .hit key => ⟨.trace, "Cache hit. key: " ++ shown key⟩
  | .rejected key => ⟨.debug, "Re-entrant call rejected. key: " ++ shown key⟩
  | .missed key => ⟨.debug, "Cache miss. key: " ++ shown key⟩
  | .cache event => event.line shown

end Memo

/-- A memoizer: what it holds, and how many computations it has started. -/
structure Memo (K V : Type) where
  cache : Cache K V
  runs : Nat

namespace Memo

/-- Some memoizers, the clock they share, the outside of their computations, and the log, latest
event first. -/
structure State (n : Nat) (K V W : Type) where
  memos : Vector (Memo K V) n
  clock : Clock
  outside : W
  log : List (Event K)

/-- How a call ends. -/
inductive Outcome (K V S : Type) where
  | returned (result : MemoResult K V) (state : S)
  /-- A step could not be done at all, and every computation on the stack was left behind. -/
  | unwound (cause : Overflow) (state : S)
  /-- There was not enough fuel. -/
  | exhausted

variable {n : Nat} {K V W : Type}

/-- Memoizers that hold nothing yet. -/
def State.start [DecidableEq K] (policies : Vector Cache.Policy n) (outside : W) :
    State n K V W where
  memos := policies.map fun p => ⟨p.cache, 0⟩
  clock := .start
  outside := outside
  log := []

namespace State

/-- A memoizer of the group. -/
def memo (s : State n K V W) (m : Fin n) : Memo K V := s.memos.get m

/-- Puts another memoizer in its place. -/
def setMemo (s : State n K V W) (m : Fin n) (x : Memo K V) : State n K V W :=
  { s with memos := s.memos.set m x m.isLt }

theorem memo_setMemo (s : State n K V W) (m k : Fin n) (x : Memo K V) :
    (s.setMemo m x).memo k = if k = m then x else s.memo k := by
  have h (w : Vector (Memo K V) n) : w.get k = w[k.val] := rfl
  rw [memo, memo, h, h, setMemo, Vector.getElem_set]
  simp only [Fin.ext_iff, eq_comm]

variable [DecidableEq K]

/-- Notes what a cache did. -/
def note (s : State n K V W) (events : List (Cache.Event K)) : State n K V W :=
  { s with log := (events.map Event.cache).reverse ++ s.log }

/-- Changes the cache of a memoizer. -/
def setCache (s : State n K V W) (m : Fin n) (c : Cache K V) : State n K V W :=
  s.setMemo m { s.memo m with cache := c }

def lookup (s : State n K V W) (m : Fin n) (key : K) : Cache.Lookup V × State n K V W :=
  let (found, cache, events) := (s.memo m).cache.lookup s.clock key
  let s := (s.setCache m cache).note events
  let event := match found with
    | .hit _ => .hit key
    | .inFlight => .rejected key
    | .absent => .missed key
  (found, { s with log := event :: s.log })

/-- Marks a key and counts the computation that starts. -/
def begin (s : State n K V W) (m : Fin n) (key : K) : State n K V W :=
  s.setMemo m ⟨(s.memo m).cache.begin key, (s.memo m).runs + 1⟩

def resolve (s : State n K V W) (m : Fin n) (key : K) (v : V) : State n K V W :=
  let (cache, events) := (s.memo m).cache.resolve s.clock key v
  (s.setCache m cache).note events

def abandon (s : State n K V W) (m : Fin n) (key : K) : State n K V W :=
  s.setCache m ((s.memo m).cache.abandon key)

def clear (s : State n K V W) (m : Fin n) : State n K V W :=
  let (cache, events) := (s.memo m).cache.clear
  (s.setCache m cache).note events

def invalidate (s : State n K V W) (m : Fin n) (key : K) : State n K V W :=
  let (cache, events) := (s.memo m).cache.invalidate key
  (s.setCache m cache).note events

/-- Moves the manual clock. -/
def advance? (s : State n K V W) (d : Duration) : Option (State n K V W) :=
  (s.clock.advance? d).map fun clock => { s with clock }

def isCached (s : State n K V W) (m : Fin n) (key : K) : Bool :=
  (s.memo m).cache.contains s.clock key

def size (s : State n K V W) (m : Fin n) : Nat := (s.memo m).cache.size

end State

variable [DecidableEq K]

/-- Runs a computation, given what calls do. -/
def run (call : Fin n → K → State n K V W → Outcome K V (State n K V W)) :
    Computation n K V W → State n K V W → Outcome K V (State n K V W)
  | .done result, s => .returned result s
  | .call m key next, s =>
    match call m key s with
    | .returned result s => run call (next result) s
    | .unwound cause s => .unwound cause s
    | .exhausted => .exhausted
  | .probe m key next, s => run call (next (s.isCached m key) (s.size m)) s
  | .runs m next, s => run call (next (s.memo m).runs) s
  | .advance d next, s =>
    match s.advance? d with
    | some s => run call next s
    | none => .unwound .instant s
  | .clear m next, s => run call next (s.clear m)
  | .invalidate m key next, s => run call next (s.invalidate m key)
  | .look next, s => run call (next s.outside) s
  | .leave w next, s => run call next { s with outside := w }
  | .unwind cause, s => .unwound cause s

/-- Ends the computation of a key. -/
def finish (m : Fin n) (key : K) :
    Outcome K V (State n K V W) → Outcome K V (State n K V W)
  | .returned (.ok v) s => .returned (.ok v) (s.resolve m key v)
  | .returned (.error e) s => .returned (.error e) (s.abandon m key)
  | .unwound cause s => .unwound cause s
  | .exhausted => .exhausted

/-- Calls a memoizer. -/
def call (body : Fin n → K → Computation n K V W) :
    (fuel : Nat) → Fin n → K → State n K V W → Outcome K V (State n K V W)
  | 0, _, _, _ => .exhausted
  | fuel + 1, m, key, s =>
    match s.lookup m key with
    | (.hit v, s) => .returned (.ok v) s
    | (.inFlight, s) => .returned (.error (.cycle key)) s
    | (.absent, s) => finish m key (run (call body fuel) (body m key) (s.begin m key))

end Memo

end Recurrence
