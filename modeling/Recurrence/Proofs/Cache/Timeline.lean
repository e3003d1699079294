import Mathlib.Logic.Function.Basic
import Recurrence.Proofs.Cache.Session
import Recurrence.Proofs.Cache.View

/-!
# Pruning is invisible

What a cache with a time to live answers for a key follows from the last thing that happened to the
key, and from the time since. A `Timeline` keeps just that, for every key, and never drops anything.

The cache keeps less. It may have lost a result, but only one that had expired by then, and the
clock does not go back; so the timeline says as well that there is nothing to be had. Which results
are dropped, and when, plays no part in this, hence `nextExpiry` does not either.
-/

namespace Recurrence.Cache

variable {K V : Type}

/-- The last thing that happened to a key. -/
inductive Mark (V : Type) where
  | begun
  | resolved (value : V) (time : Instant)

def Mark.isBegun : Mark V → Bool
  | .begun => true
  | .resolved _ _ => false

/-- The last thing that happened to each key. -/
abbrev Timeline (K V : Type) := K → Option (Mark V)

namespace Timeline

variable [DecidableEq K]

/-- Nothing has happened yet. -/
def empty : Timeline K V := fun _ => none

/-- What a request does. Giving up a computation matters only where one has begun. -/
def note (t : Timeline K V) (now : Instant) : Request K V → Timeline K V
  | .begin key => Function.update t key (some .begun)
  | .resolve key value => Function.update t key (some (.resolved value now))
  | .abandon key => Function.update t key ((t key).filter (!Mark.isBegun ·))
  | .lookup _ | .contains _ | .size => t

/-- What a session leaves, by the hand of the clock that is read. -/
def after (t : Timeline K V) (hand : Clock.Hand) : Session K V → Timeline K V
  | [] => t
  | (clock, request) :: rest => (t.note (clock.read hand) request).after hand rest

/-- A result is good for ever if its expiry cannot be represented, and else strictly before it. -/
def lookup (t : Timeline K V) (ttl : Duration) (now : Instant) (key : K) : Lookup V :=
  match t key with
  | none => .absent
  | some .begun => .inFlight
  | some (.resolved value time) =>
    match time.add? ttl with
    | none => .hit value
    | some expiry => if now.nanos < expiry.nanos then .hit value else .absent

end Timeline

/-- From `now` on until `later` the clock does not go back. -/
def Forward (hand : Clock.Hand) (later : Instant) : Instant → Session K V → Prop
  | now, [] => now.nanos ≤ later.nanos
  | now, (clock, _) :: rest =>
    now.nanos ≤ (clock.read hand).nanos ∧ Forward hand later (clock.read hand) rest

namespace Ttl

/-- A slot holds the last thing that happened to a key, unless that has expired by now. -/
inductive Stands (ttl : Duration) (now : Instant) : Option (Mark V) → Option (Slot (Dated V)) → Prop
  | untouched : Stands ttl now none none
  | begun : Stands ttl now (some .begun) (some .inFlight)
  | resolved {value : V} {time : Instant} :
      Stands ttl now (some (.resolved value time)) (some (.resolved ⟨value, time.add? ttl⟩))
  | pruned {value : V} {time expiry : Instant} : time.add? ttl = some expiry →
      expiry.nanos ≤ now.nanos → Stands ttl now (some (.resolved value time)) none

variable {ttl : Duration} {now later : Instant} {mark : Option (Mark V)}
  {slot : Option (Slot (Dated V))}

theorem Stands.mono (h : Stands ttl now mark slot) (hle : now.nanos ≤ later.nanos) :
    Stands ttl later mark slot := by
  cases h with
  | untouched => exact .untouched
  | begun => exact .begun
  | resolved => exact .resolved
  | pruned hexpiry hpast => exact .pruned hexpiry (Nat.le_trans hpast hle)

/-- A result that has expired may go. -/
theorem Stands.filter (h : Stands ttl now mark slot) (key : K) :
    Stands ttl now mark (slot.filter fun s => !isStale now (key, s)) := by
  cases h with
  | untouched => exact .untouched
  | begun => exact .begun
  | @resolved value time =>
    rw [Option.filter_some]
    by_cases hstale : isStale now (key, .resolved ⟨value, time.add? ttl⟩) = true
    · rw [if_neg (by simp [hstale])]
      cases hexpiry : time.add? ttl with
      | none => simp [isStale, Dated.isExpired, hexpiry] at hstale
      | some expiry =>
        refine .pruned hexpiry ?_
        simpa [isStale, Dated.isExpired, hexpiry] using hstale
    · rw [if_pos (by simp [hstale])]
      exact .resolved
  | pruned hexpiry hpast => exact .pruned hexpiry hpast

/-- Only what has begun is given up, and that has not been dropped. -/
theorem Stands.abandon (h : Stands ttl now mark slot) :
    Stands ttl now (mark.filter (!Mark.isBegun ·)) (slot.filter (!Slot.isInFlight ·)) := by
  cases h with
  | untouched => exact .untouched
  | begun => exact .untouched
  | resolved => exact .resolved
  | pruned hexpiry hpast => exact .pruned hexpiry hpast

variable [DecidableEq K]

/-- The cache is what is left of a timeline. -/
def Follows (now : Instant) (t : Timeline K V) (c : Ttl K V) : Prop :=
  ∀ key, Stands c.ttl now (t key) (c.slots.find? key)

variable {t : Timeline K V} {c : Ttl K V}

theorem follows_new (ttl : Duration) (now : Instant) :
    Follows now (.empty : Timeline K V) (.new ttl) :=
  fun _ => .untouched

theorem Follows.mono (h : Follows now t c) (hle : now.nanos ≤ later.nanos) : Follows later t c :=
  fun key => (h key).mono hle

theorem Follows.prune (h : Follows now t c) : Follows now t (c.prune now) := by
  intro key
  show Stands c.ttl now (t key) ((c.slots.filter fun e => !isStale now e).find? key)
  rw [Table.find?_filter]
  exact (h key).filter key

theorem Follows.begin (h : Follows now t c) (key : K) :
    Follows now (t.note now (.begin key)) (c.begin key) := by
  intro k
  show Stands c.ttl now (Function.update t key (some .begun) k) ((c.slots.begin key).find? k)
  rw [Slots.find?_begin, Function.update_apply]
  by_cases hk : key = k
  · rw [if_pos hk.symm, if_pos hk]
    exact .begun
  · rw [if_neg (Ne.symm hk), if_neg hk]
    exact h k

theorem resolve_ttl (c : Ttl K V) (now : Instant) (key : K) (value : V) :
    (c.resolve now key value).1.ttl = c.ttl := by
  show (if c.isDue now then c.prune now else c).ttl = c.ttl
  split <;> rfl

/-- Whether or not results are dropped for it, a result that arrives is held from now on. -/
theorem Follows.resolve (h : Follows now t c) (key : K) (value : V) :
    Follows now (t.note now (.resolve key value)) (c.resolve now key value).1 := by
  have hkept : Follows now t (if c.isDue now then c.prune now else c) := by
    by_cases hdue : c.isDue now = true
    · rw [if_pos hdue]
      exact h.prune
    · rw [if_neg hdue]
      exact h
  have httl := c.resolve_ttl now key value
  unfold Ttl.resolve at httl ⊢
  generalize (if c.isDue now then c.prune now else c) = kept at *
  intro k
  show Stands kept.ttl now (Function.update t key (some (.resolved value now)) k)
    ((kept.slots.resolve key ⟨value, now.add? c.ttl⟩).find? k)
  rw [Slots.find?_resolve, Function.update_apply]
  by_cases hk : key = k
  · rw [if_pos hk.symm, if_pos hk, ← httl]
    exact .resolved
  · rw [if_neg (Ne.symm hk), if_neg hk]
    exact hkept k

theorem Follows.abandon (h : Follows now t c) (key : K) :
    Follows now (t.note now (.abandon key)) (c.abandon key) := by
  intro k
  show Stands c.ttl now (Function.update t key _ k) ((c.slots.abandon key).find? k)
  rw [Slots.find?_abandon, Function.update_apply]
  by_cases hk : key = k
  · subst hk
    rw [if_pos rfl, if_pos rfl]
    exact (h key).abandon
  · rw [if_neg (Ne.symm hk), if_neg hk]
    exact h k

/-- What has been dropped could not have been used any more. -/
theorem Follows.lookup (h : Follows now t c) (key : K) :
    c.lookup now key = t.lookup c.ttl now key := by
  have hstands := h key
  unfold Ttl.lookup Slots.lookup Timeline.lookup
  generalize c.slots.find? key = slot at *
  generalize t key = mark at *
  cases hstands with
  | untouched => rfl
  | begun => rfl
  | @resolved value time =>
    cases hexpiry : time.add? c.ttl with
    | none => simp [Dated.isExpired, hexpiry]
    | some expiry =>
      by_cases hpast : expiry.nanos ≤ now.nanos
      · simp [Dated.isExpired, hexpiry, hpast]
      · simp [Dated.isExpired, hexpiry, hpast, Nat.lt_of_not_le hpast]
  | pruned hexpiry hpast => simp [hexpiry, Nat.not_lt_of_le hpast]

/-- A result is held exactly if a lookup would hit it. -/
theorem contains_iff (c : Ttl K V) (now : Instant) (key : K) :
    c.contains now key = true ↔ ∃ v, c.lookup now key = .hit v := by
  unfold contains Ttl.lookup Slots.lookup
  rcases c.slots.find? key with _ | _ | d
  · simp
  · simp
  · by_cases hd : d.isExpired now = true <;> simp [hd]

end Ttl

/-! ## Sessions -/

variable [DecidableEq K] {hand : Clock.Hand} {now later : Instant} {t : Timeline K V}
  {c : Ttl K V}

/-- **Kept by every request.** -/
theorem Ttl.Follows.serve {clock : Clock} (h : Ttl.Follows (clock.read hand) t c)
    (request : Request K V) :
    ∃ c', ((Cache.ttl hand c).serve clock request).2 = .ttl hand c' ∧ c'.ttl = c.ttl
      ∧ Ttl.Follows (clock.read hand) (t.note (clock.read hand) request) c' := by
  cases request with
  | lookup key => exact ⟨c, rfl, rfl, h⟩
  | begin key => exact ⟨_, rfl, rfl, h.begin key⟩
  | resolve key value => exact ⟨_, rfl, c.resolve_ttl _ key value, h.resolve key value⟩
  | abandon key => exact ⟨_, rfl, rfl, h.abandon key⟩
  | contains key => exact ⟨c, rfl, rfl, h⟩
  | size => exact ⟨c, rfl, rfl, h⟩

theorem Ttl.Follows.after (h : Ttl.Follows now t c) {session : Session K V}
    (hforward : Forward hand later now session) :
    ∃ c', (Cache.ttl hand c).after session = .ttl hand c' ∧ c'.ttl = c.ttl
      ∧ Ttl.Follows later (t.after hand session) c' := by
  induction session generalizing now t c with
  | nil => exact ⟨c, rfl, rfl, h.mono hforward⟩
  | cons e rest ih =>
    obtain ⟨clock, request⟩ := e
    obtain ⟨hnow, hrest⟩ := hforward
    obtain ⟨c₁, hserve, httl₁, h₁⟩ := (h.mono hnow).serve request
    obtain ⟨c₂, hafter, httl₂, h₂⟩ := ih h₁ hrest
    refine ⟨c₂, ?_, httl₂.trans httl₁, h₂⟩
    rw [Cache.after, hserve, hafter]

/--
**Pruning is invisible.** After every session through which the clock does not go back, a cache
whose results expire answers what follows from the last thing that happened to the key: a mark
since the computation has begun, the result strictly before its expiry, and for ever where there is
none, and otherwise nothing.
-/
theorem ttl_answers_timeline (ttl : Duration) (start : Instant) (session : Session K V)
    (clock : Clock) (hforward : Forward hand (clock.read hand) start session) (key : K) :
    let c := ((Policy.ttl hand ttl).cache : Cache K V).after session
    let answer := ((Timeline.empty : Timeline K V).after hand session).lookup ttl
      (clock.read hand) key
    (c.lookup clock key).1 = answer
      ∧ (c.contains clock key = true ↔ ∃ v, answer = .hit v)
      ∧ (c.contains clock key = true ↔ ∃ v, (c.lookup clock key).1 = .hit v) := by
  obtain ⟨c, hc, httl, hfollows⟩ := (Ttl.follows_new ttl start).after hforward
  have hlookup := hfollows.lookup key
  rw [httl] at hlookup
  have hcontains := c.contains_iff (clock.read hand) key
  intro cache answer
  have hcache : cache = .ttl hand c := hc
  rw [hcache]
  refine ⟨hlookup, ?_, hcontains⟩
  show c.contains _ key = true ↔ _
  rw [hcontains, hlookup]
  rfl

/-- Three results at the times 0, 5 and 10; when the third one arrives, one of ten nanoseconds has
expired. -/
def staggered : Session Nat Nat :=
  [(⟨⟨0⟩, ⟨0⟩⟩, .begin 1), (⟨⟨0⟩, ⟨0⟩⟩, .resolve 1 100), (⟨⟨5⟩, ⟨0⟩⟩, .resolve 2 200),
    (⟨⟨10⟩, ⟨0⟩⟩, .resolve 3 300), (⟨⟨10⟩, ⟨0⟩⟩, .begin 3)]

/-- The first result has been dropped, the second one is good for one more nanosecond, and the third
one has given way to a mark. -/
theorem ttl_answers_timeline_staggered :
    Forward .manual ⟨14⟩ ⟨0⟩ staggered
      ∧ let c := ((Policy.ttl .manual ⟨10⟩).cache : Cache Nat Nat).after staggered
        c.size = 2 ∧ (c.lookup ⟨⟨14⟩, ⟨0⟩⟩ 1).1 = .absent ∧ (c.lookup ⟨⟨14⟩, ⟨0⟩⟩ 2).1 = .hit 200
          ∧ (c.lookup ⟨⟨14⟩, ⟨0⟩⟩ 3).1 = .inFlight := by
  have hforward : Forward .manual ⟨14⟩ ⟨0⟩ staggered := by simp [staggered, Forward, Clock.read]
  have h := ttl_answers_timeline ⟨10⟩ ⟨0⟩ staggered ⟨⟨14⟩, ⟨0⟩⟩ hforward
  exact ⟨hforward, by decide +kernel, (h 1).1.trans (by decide +kernel),
    (h 2).1.trans (by decide +kernel), (h 3).1.trans (by decide +kernel)⟩

end Recurrence.Cache
