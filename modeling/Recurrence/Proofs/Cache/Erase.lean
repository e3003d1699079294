import Recurrence.Proofs.Cache.Retention

/-!
# A cache without a key

Whether an operation has left a trace cannot be seen from what a cache answers: an expired result
answers nothing, and the order of use shows only in what is evicted later. `entries` lists all that
is held, in its order and with its expiry, and `erase` takes one key out of a cache and changes
nothing else. To set a mark and take it back is to erase the key, and this is nothing at all unless
an expired result was in the way.
-/

namespace Recurrence

variable {K V : Type}

/-! ## Tables -/

namespace Table

theorem ext_entries {t t' : Table K V} (h : t.entries = t'.entries) : t = t' := by
  cases t
  cases t'
  cases h
  rfl

variable [DecidableEq K]

theorem filter_putIn (key : K) (value : V) (l : List (K × V)) :
    ((putIn key value l).filter fun e => decide (e.1 ≠ key))
      = l.filter fun e => decide (e.1 ≠ key) := by
  induction l with
  | nil => simp [putIn]
  | cons e rest ih =>
    obtain ⟨k, v⟩ := e
    by_cases h : k = key
    · subst h
      rw [putIn, if_pos rfl]
      simp
    · rw [putIn, if_neg h, List.filter_cons, List.filter_cons, ih]

/-- What a key was given is lost with it. -/
theorem erase_put (t : Table K V) (key : K) (value : V) :
    (t.put key value).erase key = t.erase key :=
  ext_entries (filter_putIn key value t.entries)

/-- A key that is not there need not be erased. -/
theorem erase_of_find?_eq_none {t : Table K V} {key : K} (h : t.find? key = none) :
    t.erase key = t := by
  refine ext_entries (List.filter_eq_self.mpr fun e he => decide_eq_true ?_)
  intro hkey
  exact find?_eq_none_iff.mp h (hkey ▸ List.mem_map_of_mem he)

end Table

namespace Cache

/-! ## Caches -/

/-- A result that never expires. -/
def Slot.dated : Slot V → Slot (Dated V) := Slot.map fun v => ⟨v, none⟩

/-- All that is held, marks included, in the order of the cache. -/
def entries (c : Cache K V) : List (K × Slot (Dated V)) :=
  match c with
  | .plain slots | .manual slots | .lru ⟨slots, _⟩ => slots.entries.map fun e => (e.1, e.2.dated)
  | .ttl _ timed => timed.slots.entries

variable [DecidableEq K]

/-- The cache without a key. -/
def erase (c : Cache K V) (key : K) : Cache K V :=
  match c with
  | .plain slots => .plain (slots.erase key)
  | .manual slots => .manual (slots.erase key)
  | .ttl hand timed => .ttl hand { timed with slots := timed.slots.erase key }
  | .lru recent => .lru { recent with slots := recent.slots.erase key }

/-- An expired result is held for the key. -/
def Stale (c : Cache K V) (clock : Clock) (key : K) : Prop :=
  ∃ hand timed, c = .ttl hand timed ∧ timed.holdsExpired (clock.read hand) key = true

variable {c : Cache K V} {clock : Clock} {key : K}

/-- The others keep their order, their results and their expiry. -/
theorem entries_erase (c : Cache K V) (key : K) :
    (c.erase key).entries = c.entries.filter fun e => decide (e.1 ≠ key) := by
  have hmap (l : List (K × Slot V)) :
      ((l.filter fun e => decide (e.1 ≠ key)).map fun e => (e.1, e.2.dated))
        = (l.map fun e => (e.1, e.2.dated)).filter fun e => decide (e.1 ≠ key) := by
    rw [List.filter_map]
    rfl
  cases c with
  | plain slots => exact hmap slots.entries
  | manual slots => exact hmap slots.entries
  | ttl hand timed => rfl
  | lru recent => exact hmap recent.slots.entries

theorem slot?_erase (c : Cache K V) (key k : K) :
    (c.erase key).slot? k = if key = k then none else c.slot? k := by
  cases c with
  | plain slots => exact slots.find?_erase key k
  | manual slots => exact slots.find?_erase key k
  | ttl hand timed =>
    show ((timed.slots.erase key).find? k).map _ = _
    rw [Table.find?_erase]
    by_cases hk : key = k
    · rw [if_pos hk, if_pos hk]
      rfl
    · rw [if_neg hk, if_neg hk]
      rfl
  | lru recent => exact recent.slots.find?_erase key k

theorem contains_erase (c : Cache K V) (clock : Clock) (key : K) :
    (c.erase key).contains clock key = false := by
  have hnone {U : Type} (t : Slots K U) : (t.erase key).find? key = none := by
    rw [Table.find?_erase, if_pos rfl]
  cases c with
  | plain slots => simp [erase, contains, Slots.contains, hnone]
  | manual slots => simp [erase, contains, Slots.contains, hnone]
  | ttl hand timed => simp [erase, contains, Ttl.contains, hnone]
  | lru recent => simp [erase, contains, Slots.contains, hnone]

theorem erase_begin (c : Cache K V) (key : K) : (c.begin key).erase key = c.erase key := by
  cases c <;> simp [begin, erase, Ttl.begin, Lru.begin, Slots.begin, Table.erase_put]

/-- To take back a mark is to erase its key. -/
theorem abandon_eq_erase (h : c.slot? key = some .inFlight) : c.abandon key = c.erase key := by
  have hslots {U : Type} {t : Slots K U} (ht : t.find? key = some .inFlight) :
      t.abandon key = t.erase key := by
    rw [Slots.abandon, ht]
  cases c with
  | plain slots => exact congrArg _ (hslots h)
  | manual slots => exact congrArg _ (hslots h)
  | ttl hand timed =>
    show ttl hand { timed with slots := timed.slots.abandon key } = _
    rw [hslots (Slot.map_eq_inFlight.mp h)]
    rfl
  | lru recent =>
    show lru { recent with slots := recent.slots.abandon key } = _
    rw [hslots h]
    rfl

theorem erase_of_slot?_eq_none (h : c.slot? key = none) : c.erase key = c := by
  cases c with
  | plain slots => exact congrArg _ (Table.erase_of_find?_eq_none h)
  | manual slots => exact congrArg _ (Table.erase_of_find?_eq_none h)
  | ttl hand timed =>
    show ttl hand { timed with slots := timed.slots.erase key } = _
    rw [Table.erase_of_find?_eq_none (Option.map_eq_none_iff.mp h)]
  | lru recent =>
    show lru { recent with slots := recent.slots.erase key } = _
    rw [Table.erase_of_find?_eq_none h]

/-! ## Keys that have to be computed -/

/-- Asking for a key that has to be computed changes nothing. -/
theorem lookup_of_absent (h : (c.lookup clock key).1 = .absent) : (c.lookup clock key).2.1 = c := by
  cases c with
  | plain | manual | ttl => rfl
  | lru recent =>
    change (recent.lookup key).1 = .absent at h
    show lru (recent.lookup key).2 = lru recent
    unfold Lru.lookup at h ⊢
    split at h
    · rfl
    · cases h
    · cases h

/-- A key has to be computed if nothing is held for it, or a result that has expired. -/
theorem lookup_eq_absent_iff :
    (c.lookup clock key).1 = .absent ↔ c.slot? key = none ∨ c.Stale clock key := by
  have hlasting (slot : Option (Slot V)) : Lookup.ofSlot slot = .absent ↔ slot = none := by
    rcases slot with _ | _ | v <;> simp [Lookup.ofSlot]
  have hnever (h : ∀ hand timed, c ≠ .ttl hand timed) : ¬ c.Stale clock key := by
    intro hstale
    obtain ⟨hand, timed, hc, -⟩ := hstale
    exact h hand timed hc
  cases c with
  | plain slots | manual slots =>
    show slots.lookup key = .absent ↔ _
    rw [slots.lookup_eq_ofSlot, hlasting, or_iff_left (hnever (by simp))]
    rfl
  | lru recent =>
    show (recent.lookup key).1 = .absent ↔ _
    rw [recent.lookup_fst, recent.slots.lookup_eq_ofSlot, hlasting,
      or_iff_left (hnever (by simp))]
    rfl
  | ttl hand timed =>
    have hstale : (ttl hand timed).Stale clock key
        ↔ timed.holdsExpired (clock.read hand) key = true := by
      constructor
      · intro h
        obtain ⟨_, _, hc, hexpired⟩ := h
        cases hc
        exact hexpired
      · exact fun h => ⟨hand, timed, rfl, h⟩
    show timed.lookup (clock.read hand) key = .absent
      ↔ (timed.slots.find? key).map _ = none ∨ _
    rw [hstale, Ttl.lookup, Slots.lookup_eq_ofSlot, Ttl.holdsExpired]
    rcases timed.slots.find? key with _ | _ | d
    · simp [Lookup.ofSlot]
    · simp [Lookup.ofSlot]
    · simp [Lookup.ofSlot]

end Cache

end Recurrence
