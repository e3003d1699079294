import Recurrence.Cache.Basic

/-!
# What a cache holds for a key

The four policies store different things, but a call only cares whether a key has a mark, a result
or nothing. `slot?` answers that for every policy; it leaves out the order of use and the expiry.

Through this view every operation is its own work on its own key, and on the other keys it can at
most *forget a result*. `Forgets` is all the freedom that eviction, expiry and dropping by hand
have. Marks are out of their reach, which is what a call relies on.
-/

namespace Recurrence.Cache

variable {K V : Type}

/-! ## Forgetting -/

/-- The later content of a slot is the earlier one, or nothing where a result was. -/
inductive Forgets : Option (Slot V) → Option (Slot V) → Prop where
  | same {slot : Option (Slot V)} : Forgets slot slot
  | dropped {v : V} : Forgets (some (.resolved v)) none

/-- Forgetting neither makes nor removes a mark. -/
theorem Forgets.inFlight_iff {old new : Option (Slot V)} (h : Forgets old new) :
    new = some .inFlight ↔ old = some .inFlight := by
  cases h with
  | same => exact Iff.rfl
  | dropped => simp

/-- A result that is there afterwards was there before. -/
theorem Forgets.resolved {old new : Option (Slot V)} {v : V} (h : Forgets old new)
    (hnew : new = some (.resolved v)) : old = some (.resolved v) := by
  cases h with
  | same => exact hnew
  | dropped => simp at hnew

/-- A filter that lets marks pass only forgets. -/
theorem forgets_filter {p : Slot V → Bool} (hp : p .inFlight = true) (old : Option (Slot V)) :
    Forgets old (old.filter p) := by
  cases old with
  | none => exact .same
  | some slot =>
    rw [Option.filter_some]
    by_cases h : p slot = true
    · rw [if_pos h]; exact .same
    · rw [if_neg h]
      cases slot with
      | inFlight => exact absurd hp h
      | resolved v => exact .dropped

/-- A slot with its result read in another way. -/
def Slot.map {U : Type} (f : U → V) : Slot U → Slot V
  | .inFlight => .inFlight
  | .resolved u => .resolved (f u)

theorem Slot.map_eq_inFlight {U : Type} {f : U → V} {slot : Option (Slot U)} :
    slot.map (Slot.map f) = some .inFlight ↔ slot = some .inFlight := by
  rcases slot with _ | _ | _ <;> simp [Slot.map]

theorem Forgets.map {U : Type} (f : U → V) {old new : Option (Slot U)} (h : Forgets old new) :
    Forgets (old.map (Slot.map f)) (new.map (Slot.map f)) := by
  cases h with
  | same => exact .same
  | dropped => exact .dropped

/-! ## Slots whose results are good for ever -/

namespace Slots

variable [DecidableEq K]

theorem find?_begin (t : Slots K V) (key k : K) :
    (t.begin key).find? k = if key = k then some .inFlight else t.find? k :=
  Table.find?_put t key k _

theorem find?_resolve (t : Slots K V) (key k : K) (v : V) :
    (t.resolve key v).find? k = if key = k then some (.resolved v) else t.find? k :=
  Table.find?_put t key k _

theorem find?_abandon (t : Slots K V) (key k : K) :
    (t.abandon key).find? k
      = if key = k then (t.find? k).filter (!Slot.isInFlight ·) else t.find? k := by
  unfold abandon
  split
  · rename_i h
    rw [Table.find?_erase]
    by_cases hk : key = k
    · subst hk
      rw [if_pos rfl, if_pos rfl, h]
      rfl
    · rw [if_neg hk, if_neg hk]
  -- without a mark nothing is erased, and the filter lets what is there pass
  · rename_i h
    by_cases hk : key = k
    · subst hk
      rw [if_pos rfl]
      cases hslot : t.find? key with
      | none => rfl
      | some slot =>
        cases slot with
        | inFlight => exact absurd hslot h
        | resolved v => rfl
    · rw [if_neg hk]

theorem forgets_clear (t : Slots K V) (k : K) : Forgets (t.find? k) (t.clear.find? k) := by
  rw [clear, Table.find?_filter]
  exact forgets_filter rfl _

theorem forgets_invalidate (t : Slots K V) (key k : K) :
    Forgets (t.find? k) ((t.invalidate key).find? k) := by
  unfold invalidate
  split
  · rename_i h
    rw [Table.find?_erase]
    by_cases hk : key = k
    · subst hk
      rw [if_pos rfl]
      unfold contains at h
      split at h
      · rename_i hslot
        rw [hslot]
        exact .dropped
      · simp at h
    · rw [if_neg hk]; exact .same
  · exact .same

theorem lookup_eq_inFlight_iff {t : Slots K V} {key : K} :
    t.lookup key = .inFlight ↔ t.find? key = some .inFlight := by
  unfold lookup
  split <;> simp_all

theorem find?_of_lookup_hit {t : Slots K V} {key : K} {v : V} (h : t.lookup key = .hit v) :
    t.find? key = some (.resolved v) := by
  unfold lookup at h
  split at h
  · simp at h
  · simp at h
  · rename_i hslot
    rw [hslot, Lookup.hit.inj h]

end Slots

/-! ## The most recently used results -/

namespace Lru

variable [DecidableEq K]

theorem findIn_evict (excess : Nat) (es : List (K × Slot V)) (hes : (es.map Prod.fst).Nodup)
    (k : K) : Forgets (Table.findIn k es) (Table.findIn k (evict excess es).2) := by
  fun_induction evict excess es with
  | case1 | case2 | case3 => exact .same
  -- a mark is passed over
  | case4 excess key rest _ gone kept h ih =>
    rw [List.map_cons, List.nodup_cons] at hes
    simp only [h] at ih
    simp only [Table.findIn]
    by_cases hk : key = k
    · simp only [hk, if_true]; exact .same
    · simp only [hk, if_false]; exact ih hes.2
  -- a result is evicted
  | case5 excess key v rest _ gone kept h ih =>
    rw [List.map_cons, List.nodup_cons] at hes
    simp only [h] at ih
    simp only [Table.findIn]
    by_cases hk : key = k
    · -- the evicted key is nowhere else
      have hsub : kept.Sublist rest := by
        have hs := evict_sublist excess rest
        rwa [h] at hs
      have hkept : Table.findIn k kept = none := by
        rw [Table.findIn_eq_none_iff, ← hk]
        exact fun hmem => hes.1 ((hsub.map Prod.fst).subset hmem)
      simp only [hk, if_true, hkept]
      exact .dropped
    · simp only [hk, if_false]; exact ih hes.2

theorem find?_lookup (c : Lru K V) (key k : K) :
    (c.lookup key).2.slots.find? k = c.slots.find? k := by
  unfold lookup
  split
  · rfl
  · rfl
  · rename_i v h
    rw [Table.find?_putLast]
    by_cases hk : key = k
    · rw [if_pos hk, ← hk, h]
    · rw [if_neg hk]

theorem lookup_fst (c : Lru K V) (key : K) : (c.lookup key).1 = c.slots.lookup key := by
  unfold lookup Slots.lookup
  split <;> simp_all

theorem forgets_resolve (c : Lru K V) (key k : K) (v : V) :
    Forgets (if key = k then some (.resolved v) else c.slots.find? k)
      ((c.resolve key v).1.slots.find? k) := by
  rw [← Table.find?_putLast]
  exact findIn_evict _ _ (c.slots.putLast key (.resolved v)).nodup k

end Lru

/-! ## Results with a time to live -/

namespace Ttl

variable [DecidableEq K]

theorem forgets_prune (c : Ttl K V) (now : Instant) (k : K) :
    Forgets (c.slots.find? k) ((c.prune now).slots.find? k) := by
  show Forgets _ ((c.slots.filter fun e => !isStale now e).find? k)
  rw [Table.find?_filter]
  exact forgets_filter rfl _

/-- Of the result that has just arrived the view keeps the value. -/
theorem forgets_resolve (c : Ttl K V) (now : Instant) (key k : K) (v : V) :
    Forgets (if key = k then some (.resolved v)
        else (c.slots.find? k).map (Slot.map Dated.value))
      (((c.resolve now key v).1.slots.find? k).map (Slot.map Dated.value)) := by
  have hkept : ∀ kept : Ttl K V, Forgets (c.slots.find? k) (kept.slots.find? k) →
      Forgets (if key = k then some (.resolved v)
          else (c.slots.find? k).map (Slot.map Dated.value))
        (((kept.slots.resolve key ⟨v, now.add? c.ttl⟩).find? k).map (Slot.map Dated.value)) := by
    intro kept h
    rw [Slots.find?_resolve]
    by_cases hk : key = k
    · rw [if_pos hk, if_pos hk]; exact .same
    · rw [if_neg hk, if_neg hk]; exact h.map _
  unfold resolve
  by_cases hdue : c.isDue now = true
  · simp only [hdue, if_true]
    exact hkept _ (forgets_prune c now k)
  · simp only [hdue]
    exact hkept c .same

theorem lookup_eq_inFlight_iff {c : Ttl K V} {now : Instant} {key : K} :
    c.lookup now key = .inFlight ↔ c.slots.find? key = some .inFlight := by
  rw [← Slots.lookup_eq_inFlight_iff]
  unfold lookup
  split
  · simp_all
  · simp_all
  · rename_i d h
    by_cases hd : d.isExpired now = true <;> simp [h, hd]

theorem find?_of_lookup_hit {c : Ttl K V} {now : Instant} {key : K} {v : V}
    (h : c.lookup now key = .hit v) :
    (c.slots.find? key).map (Slot.map Dated.value) = some (.resolved v) := by
  unfold lookup at h
  split at h
  · simp at h
  · simp at h
  · rename_i d hd
    rw [Slots.find?_of_lookup_hit hd]
    by_cases he : d.isExpired now = true
    · simp [he] at h
    · simp only [he, Bool.false_eq_true, if_false, Lookup.hit.injEq] at h
      simp [Slot.map, h]

theorem not_holdsExpired {c : Ttl K V} {now : Instant} {key : K}
    (h : c.slots.find? key = some .inFlight) : c.holdsExpired now key = false := by
  simp [holdsExpired, h]

end Ttl

/-! ## All policies -/

variable [DecidableEq K]

/-- What is held for a key, whatever the policy. -/
def slot? (c : Cache K V) (key : K) : Option (Slot V) :=
  match c with
  | .plain slots | .manual slots | .lru ⟨slots, _⟩ => slots.find? key
  | .ttl _ timed => (timed.slots.find? key).map (Slot.map Dated.value)

theorem slot?_cache (policy : Policy) (key : K) : (policy.cache : Cache K V).slot? key = none := by
  cases policy <;> rfl

theorem slot?_lookup (c : Cache K V) (clock : Clock) (key k : K) :
    (c.lookup clock key).2.1.slot? k = c.slot? k := by
  cases c with
  | plain slots => rfl
  | manual slots => rfl
  | ttl hand timed => rfl
  | lru recent => exact recent.find?_lookup key k

/-- The guard refuses exactly the keys that have a mark. -/
theorem lookup_eq_inFlight_iff {c : Cache K V} {clock : Clock} {key : K} :
    (c.lookup clock key).1 = .inFlight ↔ c.slot? key = some .inFlight := by
  cases c with
  | plain slots => exact Slots.lookup_eq_inFlight_iff
  | manual slots => exact Slots.lookup_eq_inFlight_iff
  | ttl hand timed => exact Ttl.lookup_eq_inFlight_iff.trans Slot.map_eq_inFlight.symm
  | lru recent =>
    show (recent.lookup key).1 = .inFlight ↔ _
    rw [Lru.lookup_fst]
    exact Slots.lookup_eq_inFlight_iff

theorem slot?_of_lookup_hit {c : Cache K V} {clock : Clock} {key : K} {v : V}
    (h : (c.lookup clock key).1 = .hit v) : c.slot? key = some (.resolved v) := by
  cases c with
  | plain slots => exact Slots.find?_of_lookup_hit h
  | manual slots => exact Slots.find?_of_lookup_hit h
  | ttl hand timed => exact Ttl.find?_of_lookup_hit h
  | lru recent => exact Slots.find?_of_lookup_hit ((Lru.lookup_fst recent key).symm.trans h)

/-- Asking for a key that has a mark changes nothing. -/
theorem lookup_of_inFlight {c : Cache K V} (clock : Clock) {key : K}
    (h : c.slot? key = some .inFlight) : c.lookup clock key = (.inFlight, c, []) := by
  cases c with
  | plain slots => simp [lookup, Slots.lookup_eq_inFlight_iff.2 h]
  | manual slots => simp [lookup, Slots.lookup_eq_inFlight_iff.2 h]
  | ttl hand timed =>
    have hslot := Slot.map_eq_inFlight.1 h
    simp [lookup, Ttl.lookup_eq_inFlight_iff.2 hslot, Ttl.not_holdsExpired hslot]
  | lru recent =>
    have hslot : recent.slots.find? key = some .inFlight := h
    simp [lookup, Lru.lookup, hslot]

theorem slot?_begin (c : Cache K V) (key k : K) :
    (c.begin key).slot? k = if key = k then some .inFlight else c.slot? k := by
  cases c with
  | plain slots => exact slots.find?_begin key k
  | manual slots => exact slots.find?_begin key k
  | ttl hand timed =>
    show ((timed.slots.begin key).find? k).map _ = _
    rw [Slots.find?_begin]
    by_cases hk : key = k <;> simp [hk, Slot.map, slot?]
  | lru recent => exact recent.slots.find?_begin key k

/-- A result arrives; apart from that a cache can only forget results. -/
theorem forgets_resolve (c : Cache K V) (clock : Clock) (key k : K) (v : V) :
    Forgets (if key = k then some (.resolved v) else c.slot? k)
      ((c.resolve clock key v).1.slot? k) := by
  cases c with
  | plain slots =>
    show Forgets _ ((slots.resolve key v).find? k)
    rw [Slots.find?_resolve]
    exact .same
  | manual slots =>
    show Forgets _ ((slots.resolve key v).find? k)
    rw [Slots.find?_resolve]
    exact .same
  | ttl hand timed => exact timed.forgets_resolve (clock.read hand) key k v
  | lru recent => exact recent.forgets_resolve key k v

theorem slot?_abandon (c : Cache K V) (key k : K) :
    (c.abandon key).slot? k
      = if key = k then (c.slot? k).filter (!Slot.isInFlight ·) else c.slot? k := by
  cases c with
  | plain slots => exact slots.find?_abandon key k
  | manual slots => exact slots.find?_abandon key k
  | ttl hand timed =>
    show ((timed.slots.abandon key).find? k).map _ = _
    rw [Slots.find?_abandon]
    by_cases hk : key = k
    · rw [if_pos hk, if_pos hk]
      show _ = ((timed.slots.find? k).map _).filter _
      rcases timed.slots.find? k with _ | _ | _ <;> rfl
    · rw [if_neg hk, if_neg hk]; rfl
  | lru recent => exact recent.slots.find?_abandon key k

theorem forgets_clear (c : Cache K V) (k : K) : Forgets (c.slot? k) (c.clear.1.slot? k) := by
  cases c with
  | manual slots => exact slots.forgets_clear k
  | plain | ttl | lru => exact .same

theorem forgets_invalidate (c : Cache K V) (key k : K) :
    Forgets (c.slot? k) ((c.invalidate key).1.slot? k) := by
  cases c with
  | manual slots => exact slots.forgets_invalidate key k
  | plain | ttl | lru => exact .same

end Recurrence.Cache
