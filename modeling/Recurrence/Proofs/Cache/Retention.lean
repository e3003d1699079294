import Mathlib.Data.Finset.Card
import Recurrence.Proofs.Cache.Timeline

/-!
# What a cache retains

A cache loses results for three reasons: they have expired, there is no room for them, or they are
dropped by hand. Where none of the three applies the four policies cannot be told apart. A cache
then answers what stands in its slots, and a result that arrives is held beside all the others.

The keys of a cache are those of its slots, so its size can be read off the view as well.
-/

namespace Recurrence

/-! ## Keys of a table -/

namespace Table

variable {K V : Type} [DecidableEq K]

/-- The keys of a table. -/
def keys (t : Table K V) : Finset K := (t.entries.map Prod.fst).toFinset

theorem mem_keys {t : Table K V} {k : K} : k ∈ t.keys ↔ t.find? k ≠ none := by
  rw [keys, List.mem_toFinset, Ne, find?_eq_none_iff, not_not]

theorem card_keys (t : Table K V) : t.keys.card = t.size := by
  rw [keys, List.toFinset_card_of_nodup t.nodup, List.length_map]
  rfl

theorem keys_putLast (t : Table K V) (key : K) (v : V) :
    (t.putLast key v).keys = insert key t.keys := by
  ext k
  rw [mem_keys, find?_putLast, Finset.mem_insert, mem_keys]
  by_cases hk : key = k
  · simp [hk]
  · simp [hk, Ne.symm hk]

end Table

namespace Cache

variable {K V : Type} [DecidableEq K]

/-! ## Policies -/

/-- Are results dropped by hand? -/
def Policy.byHand (p : Policy) : Bool := p = .manual

/-- Time and room take nothing away from a cache of this policy. -/
def Policy.Lasting : Policy → Prop
  | .plain | .manual => True
  | .ttl _ _ | .lru _ => False

/-- The policy of a cache. -/
def policy : Cache K V → Policy
  | .plain _ => .plain
  | .manual _ => .manual
  | .ttl hand timed => .ttl hand timed.ttl
  | .lru recent => .lru recent.capacity

omit [DecidableEq K] in
@[simp] theorem policy_cache (policy : Policy) : (policy.cache : Cache K V).policy = policy := by
  cases policy <;> rfl

/-- What the operations of a cache do not change. -/
structure Kept (P : Cache K V → Prop) : Prop where
  lookup : ∀ c clock key, P c → P (c.lookup clock key).2.1
  begin : ∀ c key, P c → P (c.begin key)
  resolve : ∀ c clock key v, P c → P (c.resolve clock key v).1
  abandon : ∀ c key, P c → P (c.abandon key)
  clear : ∀ c, P c → P c.clear.1
  invalidate : ∀ c key, P c → P (c.invalidate key).1

theorem policy_lookup (c : Cache K V) (clock : Clock) (key : K) :
    (c.lookup clock key).2.1.policy = c.policy := by
  cases c with
  | plain | manual | ttl => rfl
  | lru recent =>
    show Policy.lru (recent.lookup key).2.capacity = .lru recent.capacity
    unfold Lru.lookup
    split <;> rfl

theorem policy_resolve (c : Cache K V) (clock : Clock) (key : K) (v : V) :
    (c.resolve clock key v).1.policy = c.policy := by
  cases c with
  | plain | manual | lru => rfl
  | ttl hand timed => exact congrArg (Policy.ttl hand) (timed.resolve_ttl (clock.read hand) key v)

omit [DecidableEq K] in
theorem policy_clear (c : Cache K V) : c.clear.1.policy = c.policy := by
  cases c <;> rfl

theorem policy_invalidate (c : Cache K V) (key : K) : (c.invalidate key).1.policy = c.policy := by
  cases c <;> rfl

/-- A cache keeps its policy. -/
theorem kept_policy (p : Policy) : Kept fun c : Cache K V => c.policy = p where
  lookup c clock key h := (policy_lookup c clock key).trans h
  begin c _ h := by cases c <;> exact h
  resolve c clock key v h := (policy_resolve c clock key v).trans h
  abandon c _ h := by cases c <;> exact h
  clear c h := (policy_clear c).trans h
  invalidate c key h := (policy_invalidate c key).trans h

/-! ## Keys and size -/

/-- The keys for which something is held. -/
def keys : Cache K V → Finset K
  | .plain slots | .manual slots | .lru ⟨slots, _⟩ => slots.keys
  | .ttl _ timed => timed.slots.keys

theorem mem_keys {c : Cache K V} {k : K} : k ∈ c.keys ↔ c.slot? k ≠ none := by
  cases c with
  | plain | manual | lru => exact Table.mem_keys
  | ttl hand timed =>
    show k ∈ timed.slots.keys ↔ (timed.slots.find? k).map _ ≠ none
    rw [Table.mem_keys, Ne, Ne, Option.map_eq_none_iff]

theorem card_keys (c : Cache K V) : c.keys.card = c.size := by
  cases c <;> exact Table.card_keys _

/-- Caches that hold something for the same keys are of the same size. -/
theorem size_eq_of_slot?_eq {c d : Cache K V} (h : ∀ k, c.slot? k = d.slot? k) :
    c.size = d.size := by
  have hkeys : c.keys = d.keys := by
    ext k
    rw [mem_keys, mem_keys, h k]
  rw [← card_keys, ← card_keys, hkeys]

/-! ## Answers -/

/-- The answer to a question for a key, if nothing has expired. -/
def Lookup.ofSlot : Option (Slot V) → Lookup V
  | none => .absent
  | some .inFlight => .inFlight
  | some (.resolved v) => .hit v

/-- No result that is held has expired. -/
def Fresh (c : Cache K V) (clock : Clock) : Prop :=
  match c with
  | .ttl hand timed => ∀ key d, timed.slots.find? key = some (.resolved d) →
      d.isExpired (clock.read hand) = false
  | _ => True

theorem fresh_of_lasting {c : Cache K V} (h : c.policy.Lasting) (clock : Clock) :
    c.Fresh clock := by
  cases c with
  | plain | manual | lru => trivial
  | ttl => exact h.elim

theorem Slots.lookup_eq_ofSlot (t : Slots K V) (key : K) :
    t.lookup key = .ofSlot (t.find? key) := by
  unfold Slots.lookup
  split <;> simp_all [Lookup.ofSlot]

theorem Slots.contains_iff {t : Slots K V} {key : K} :
    t.contains key = true ↔ ∃ v, t.find? key = some (.resolved v) := by
  unfold Slots.contains
  split <;> simp_all

variable {c : Cache K V} {clock : Clock}

theorem lookup_eq_ofSlot (h : c.Fresh clock) (key : K) :
    (c.lookup clock key).1 = .ofSlot (c.slot? key) := by
  cases c with
  | plain slots | manual slots => exact slots.lookup_eq_ofSlot key
  | lru recent => exact (recent.lookup_fst key).trans (recent.slots.lookup_eq_ofSlot key)
  | ttl hand timed =>
    show timed.lookup (clock.read hand) key = .ofSlot ((timed.slots.find? key).map _)
    unfold Ttl.lookup
    rw [Slots.lookup_eq_ofSlot]
    cases hslot : timed.slots.find? key with
    | none => rfl
    | some slot =>
      cases slot with
      | inFlight => rfl
      | resolved d => simp [Lookup.ofSlot, Slot.map, h key d hslot]

/-- Where nothing but a drop takes a result away, to ask for it changes nothing. -/
theorem lookup_of_lasting (h : c.policy.Lasting) (key : K) :
    c.lookup clock key = (.ofSlot (c.slot? key), c, []) := by
  cases c with
  | plain slots | manual slots =>
    show (slots.lookup key, _, []) = _
    rw [slots.lookup_eq_ofSlot]
    rfl
  | ttl | lru => exact h.elim

theorem contains_iff_slot? (h : c.Fresh clock) {key : K} :
    c.contains clock key = true ↔ ∃ v, c.slot? key = some (.resolved v) := by
  cases c with
  | plain | manual | lru => exact Slots.contains_iff
  | ttl hand timed =>
    show timed.contains (clock.read hand) key = true ↔ ∃ v, (timed.slots.find? key).map _ = _
    unfold Ttl.contains
    cases hslot : timed.slots.find? key with
    | none => simp
    | some slot =>
      cases slot with
      | inFlight => simp [Slot.map]
      | resolved d => simp [Slot.map, h key d hslot]

/-! ## Results that arrive -/

/-- Is there room for so many keys? -/
def Policy.HasRoom (count : Nat) : Policy → Prop
  | .lru capacity => count ≤ capacity
  | _ => True

theorem Policy.HasRoom.mono {p : Policy} {count more : Nat} (h : p.HasRoom more)
    (hle : count ≤ more) : p.HasRoom count := by
  cases p with
  | plain | manual | ttl => trivial
  | lru capacity => exact Nat.le_trans hle h

theorem Policy.Lasting.hasRoom {p : Policy} (h : p.Lasting) (count : Nat) : p.HasRoom count := by
  cases p with
  | plain | manual | ttl => trivial
  | lru => exact h.elim

theorem Lru.find?_resolve (recent : Lru K V) (key k : K) (v : V)
    (hroom : (insert key (recent.slots.keys)).card ≤ recent.capacity) :
    (recent.resolve key v).1.slots.find? k
      = if key = k then some (.resolved v) else recent.slots.find? k := by
  rw [← Table.find?_putLast]
  -- nothing is evicted, since there is no entry too many
  have hexcess : (recent.slots.putLast key (.resolved v)).size - recent.capacity = 0 := by
    rw [← Table.card_keys, Table.keys_putLast]
    omega
  have hkept : (evict ((recent.slots.putLast key (.resolved v)).size - recent.capacity)
      (recent.slots.putLast key (.resolved v)).entries).2
        = (recent.slots.putLast key (.resolved v)).entries := by
    rw [hexcess, evict]
  show Table.findIn k (evict _ _).2 = Table.findIn k _
  rw [hkept]

theorem Ttl.find?_prune {timed : Ttl K V} {now : Instant}
    (h : ∀ key d, timed.slots.find? key = some (.resolved d) → d.isExpired now = false) (k : K) :
    (timed.prune now).slots.find? k = timed.slots.find? k := by
  show (timed.slots.filter fun e => !isStale now e).find? k = _
  rw [Table.find?_filter]
  cases hslot : timed.slots.find? k with
  | none => rfl
  | some slot =>
    cases slot with
    | inFlight => rfl
    | resolved d =>
      rw [Option.filter_some, if_pos]
      simp [isStale, h k d hslot]

theorem Ttl.find?_resolve {timed : Ttl K V} {now : Instant}
    (h : ∀ key d, timed.slots.find? key = some (.resolved d) → d.isExpired now = false)
    (key k : K) (v : V) :
    (timed.resolve now key v).1.slots.find? k
      = if key = k then some (.resolved ⟨v, now.add? timed.ttl⟩) else timed.slots.find? k := by
  have hkept : (if timed.isDue now then timed.prune now else timed).slots.find? k
      = timed.slots.find? k := by
    split
    · exact find?_prune h k
    · rfl
  unfold Ttl.resolve
  rw [Slots.find?_resolve, hkept]

/-- **A result that arrives is held beside all the others**, if there is room and nothing has
expired. -/
theorem slot?_resolve (hfresh : c.Fresh clock) {key : K}
    (hroom : c.policy.HasRoom (insert key c.keys).card) (k : K) (v : V) :
    (c.resolve clock key v).1.slot? k = if key = k then some (.resolved v) else c.slot? k := by
  cases c with
  | plain slots | manual slots => exact slots.find?_resolve key k v
  | lru recent => exact recent.find?_resolve key k v hroom
  | ttl hand timed =>
    show ((timed.resolve (clock.read hand) key v).1.slots.find? k).map _ = _
    rw [Ttl.find?_resolve hfresh]
    by_cases hk : key = k
    · rw [if_pos hk, if_pos hk]
      rfl
    · rw [if_neg hk, if_neg hk]
      rfl

/-! ## Results that never expire -/

/-- The time to live reaches beyond the end of time, so no result has an expiry. -/
def Endless : Cache K V → Prop
  | .plain _ | .manual _ | .lru _ => True
  | .ttl _ timed => Instant.limit ≤ timed.ttl.nanos
      ∧ ∀ key d, timed.slots.find? key = some (.resolved d) → d.expiry = none

theorem Endless.fresh (h : c.Endless) (clock : Clock) : c.Fresh clock := by
  cases c with
  | plain | manual | lru => trivial
  | ttl hand timed =>
    intro key d hslot
    rw [Dated.isExpired, h.2 key d hslot]

theorem Ttl.find?_of_resolve {timed : Ttl K V} {now : Instant} {key k : K} {v : V} {d : Dated V}
    (h : (timed.resolve now key v).1.slots.find? k = some (.resolved d)) :
    d = ⟨v, now.add? timed.ttl⟩ ∨ timed.slots.find? k = some (.resolved d) := by
  unfold Ttl.resolve at h
  rw [Slots.find?_resolve] at h
  by_cases hk : key = k
  · rw [if_pos hk] at h
    cases h
    exact .inl rfl
  · rw [if_neg hk] at h
    right
    split at h
    · rw [prune, Table.find?_filter, Option.filter_eq_some_iff] at h
      exact h.1
    · exact h

/-- **Kept by every operation.** -/
theorem kept_endless : Kept (Endless : Cache K V → Prop) where
  lookup c clock key h := by
    cases c with
    | plain | manual | lru => trivial
    | ttl hand timed => exact h
  begin c key h := by
    cases c with
    | plain | manual | lru => trivial
    | ttl hand timed =>
      refine ⟨h.1, fun k d hslot => h.2 k d ?_⟩
      rw [Ttl.begin, Slots.find?_begin] at hslot
      split at hslot
      · cases hslot
      · exact hslot
  resolve c clock key v h := by
    cases c with
    | plain | manual | lru => trivial
    | ttl hand timed =>
      refine ⟨?_, fun k d hslot => ?_⟩
      · show Instant.limit ≤ (timed.resolve (clock.read hand) key v).1.ttl.nanos
        rw [Ttl.resolve_ttl]
        exact h.1
      · rcases Ttl.find?_of_resolve hslot with rfl | hslot
        · refine if_neg ?_
          have hlimit := h.1
          omega
        · exact h.2 k d hslot
  abandon c key h := by
    cases c with
    | plain | manual | lru => trivial
    | ttl hand timed =>
      refine ⟨h.1, fun k d hslot => h.2 k d ?_⟩
      rw [Ttl.abandon, Slots.find?_abandon] at hslot
      split at hslot
      · exact (Option.filter_eq_some_iff.mp hslot).1
      · exact hslot
  clear c h := by
    cases c with
    | plain | manual | lru => trivial
    | ttl => exact h
  invalidate c key h := by
    cases c with
    | plain | manual | lru => trivial
    | ttl => exact h

/-- A policy under which no result has an expiry. -/
theorem endless_cache {p : Policy} (h : ∀ hand ttl, p = .ttl hand ttl → Instant.limit ≤ ttl.nanos) :
    (p.cache : Cache K V).Endless := by
  cases p with
  | plain | manual | lru => trivial
  | ttl hand ttl =>
    refine ⟨h hand ttl rfl, fun key d hslot => ?_⟩
    cases hslot

/-! ## Dropping by hand -/

theorem Slots.find?_clear (t : Slots K V) (k : K) :
    t.clear.find? k = (t.find? k).filter Slot.isInFlight := by
  rw [Slots.clear, Table.find?_filter]

theorem Slots.find?_invalidate (t : Slots K V) (key k : K) :
    (t.invalidate key).find? k
      = if key = k then (t.find? k).filter Slot.isInFlight else t.find? k := by
  unfold Slots.invalidate
  by_cases hk : key = k
  · subst hk
    rw [if_pos rfl]
    split
    · rename_i hcontains
      obtain ⟨v, hv⟩ := Slots.contains_iff.mp hcontains
      rw [Table.find?_erase, if_pos rfl, hv]
      rfl
    · rename_i hcontains
      rw [Slots.contains_iff] at hcontains
      cases hslot : t.find? key with
      | none => rfl
      | some slot =>
        cases slot with
        | inFlight => rfl
        | resolved v => exact absurd ⟨v, hslot⟩ hcontains
  · rw [if_neg hk]
    split
    · rw [Table.find?_erase, if_neg hk]
    · rfl

theorem slot?_clear (c : Cache K V) (k : K) :
    c.clear.1.slot? k
      = if c.policy = .manual then (c.slot? k).filter Slot.isInFlight else c.slot? k := by
  cases c with
  | manual slots => exact slots.find?_clear k
  | plain | ttl | lru => rfl

theorem slot?_invalidate (c : Cache K V) (key k : K) :
    (c.invalidate key).1.slot? k
      = if c.policy = .manual ∧ key = k then (c.slot? k).filter Slot.isInFlight
        else c.slot? k := by
  cases c with
  | manual slots =>
    show (slots.invalidate key).find? k = _
    rw [Slots.find?_invalidate]
    simp only [policy, true_and]
    rfl
  | plain | ttl | lru => simp [invalidate, policy]

end Cache

end Recurrence
