import Recurrence.Cache.Basic

/-!
# Sessions

A session is any series of requests to a cache: whatever keys, whatever order, also one that no
call would make. Each request comes with what the clock shows at that time.
-/

namespace Recurrence.Cache

/-- What can be asked of a cache. -/
inductive Request (K V : Type) where
  | lookup (key : K)
  | begin (key : K)
  | resolve (key : K) (value : V)
  | abandon (key : K)
  | contains (key : K)
  | size

/-- The answer to a request. -/
inductive Reply (V : Type) where
  | found (answer : Lookup V)
  | held (b : Bool)
  | count (n : Nat)
  | done
deriving DecidableEq

/-- Requests with the times at which they are made. -/
abbrev Session (K V : Type) := List (Clock × Request K V)

variable {K V : Type} [DecidableEq K]

/-- The answer of a cache, and the cache it leaves. -/
def serve (c : Cache K V) (clock : Clock) : Request K V → Reply V × Cache K V
  | .lookup key => (.found (c.lookup clock key).1, (c.lookup clock key).2.1)
  | .begin key => (.done, c.begin key)
  | .resolve key value => (.done, (c.resolve clock key value).1)
  | .abandon key => (.done, c.abandon key)
  | .contains key => (.held (c.contains clock key), c)
  | .size => (.count c.size, c)

/-- What a session leaves. -/
def after (c : Cache K V) : Session K V → Cache K V
  | [] => c
  | (clock, request) :: rest => (c.serve clock request).2.after rest

/-- The answers of a session. -/
def replies (c : Cache K V) : Session K V → List (Reply V)
  | [] => []
  | (clock, request) :: rest =>
    (c.serve clock request).1 :: (c.serve clock request).2.replies rest

end Recurrence.Cache
