import Recurrence.Proofs.Cache.Erase

/-!
# Expired results do not pile up

A cache with a time to live looks for expired results only when a result arrives, and only if
`nextExpiry` says that there can be any. Marks and other results take the place of a result without
`nextExpiry` being told, so it may be earlier than every expiry that is held. It must not be later
than one, or not there at all while a result can expire: `Watched` is the invariant.

What a result that arrives leaves of the other keys follows. If `nextExpiry` lies ahead, nothing has
expired, and if it does not, what has expired is dropped. Either way exactly what has not expired
stays (`entries_swept`).
-/

namespace Recurrence

theorem Instant.earlier_le_left (s t : Instant) : (s.earlier t).nanos ≤ s.nanos := by
  unfold earlier
  split <;> omega

theorem Instant.earlier_le_right (s t : Instant) : (s.earlier t).nanos ≤ t.nanos := by
  unfold earlier
  split <;> omega

variable {K V : Type}

/-- A key is held once, so there is one entry beside those of the other keys. -/
theorem Table.length_putIn [DecidableEq K] (key : K) (value : V) {l : List (K × V)}
    (hl : (l.map Prod.fst).Nodup) :
    (putIn key value l).length = 1 + (l.filter fun e => decide (e.1 ≠ key)).length := by
  induction l with
  | nil => rfl
  | cons e rest ih =>
    obtain ⟨k, v⟩ := e
    rw [List.map_cons, List.nodup_cons] at hl
    by_cases h : k = key
    · subst h
      have hrest : (rest.filter fun e => decide (e.1 ≠ k)) = rest := by
        refine List.filter_eq_self.mpr fun e he => decide_eq_true ?_
        intro hkey
        exact hl.1 (List.mem_map.mpr ⟨e, he, hkey⟩)
      rw [putIn, if_pos rfl, List.filter_cons_of_neg (by simp), hrest, List.length_cons]
      omega
    · rw [putIn, if_neg h, List.filter_cons_of_pos (by simpa using h), List.length_cons,
        List.length_cons, ih hl.2]
      omega

namespace Cache.Ttl

/-! ## A bound on what expires -/

/-- There is a bound, and it is no later than a point in time. -/
def NoLater (bound : Option Instant) (t : Instant) : Prop :=
  ∃ s, bound = some s ∧ s.nanos ≤ t.nanos

/-- The bound once a result with an expiry of its own is held as well. -/
def soonest (expiry bound : Option Instant) : Option Instant :=
  match expiry, bound with
  | none, next => next
  | some t, none => some t
  | some t, some next => some (next.earlier t)

theorem NoLater.soonest {bound : Option Instant} {t : Instant} (h : NoLater bound t)
    (expiry : Option Instant) : NoLater (soonest expiry bound) t := by
  obtain ⟨s, rfl, hle⟩ := h
  cases expiry with
  | none => exact ⟨s, rfl, hle⟩
  | some t' => exact ⟨_, rfl, (Instant.earlier_le_left s t').trans hle⟩

theorem noLater_soonest (t : Instant) (bound : Option Instant) :
    NoLater (soonest (some t) bound) t := by
  cases bound with
  | none => exact ⟨t, rfl, Nat.le_refl _⟩
  | some next => exact ⟨_, rfl, Instant.earlier_le_right next t⟩

theorem foldl_noLater {α : Type} {step : Option Instant → α → Option Instant} {t : Instant}
    (hstep : ∀ found a, NoLater found t → NoLater (step found a) t) (as : List α)
    {found : Option Instant} (h : NoLater found t) : NoLater (as.foldl step found) t := by
  induction as generalizing found with
  | nil => exact h
  | cons a as ih => exact ih (hstep found a h)

/-- The earliest expiry is no later than any. -/
theorem noLater_earliest {es : List (K × Slot (Dated V))} {key : K} {value : V} {t : Instant}
    (h : (key, .resolved ⟨value, some t⟩) ∈ es) : NoLater (earliest es) t := by
  obtain ⟨front, back, rfl⟩ := List.append_of_mem h
  unfold earliest
  rw [List.foldl_append, List.foldl_cons]
  refine foldl_noLater ?later back ?here
  case here =>
    generalize front.foldl _ _ = found
    cases found with
    | none => exact ⟨t, rfl, Nat.le_refl _⟩
    | some s => exact ⟨_, rfl, Instant.earlier_le_right s t⟩
  case later =>
    intro found e hfound
    obtain ⟨s, rfl, hle⟩ := hfound
    obtain ⟨k, slot⟩ := e
    rcases slot with _ | ⟨v, expiry⟩
    · exact ⟨s, rfl, hle⟩
    · cases expiry with
      | none => exact ⟨s, rfl, hle⟩
      | some t' => exact ⟨_, rfl, (Instant.earlier_le_left s t').trans hle⟩

theorem isStale_iff {now : Instant} {e : K × Slot (Dated V)} :
    isStale now e = true
      ↔ ∃ value t, e.2 = .resolved ⟨value, some t⟩ ∧ t.nanos ≤ now.nanos := by
  obtain ⟨key, slot⟩ := e
  rcases slot with _ | ⟨v, expiry⟩
  · simp [isStale]
  · cases expiry with
    | none => simp [isStale, Dated.isExpired]
    | some t => simp [isStale, Dated.isExpired]

theorem isDue_iff {c : Ttl K V} {now : Instant} :
    c.isDue now = true ↔ NoLater c.nextExpiry now := by
  unfold isDue NoLater
  cases c.nextExpiry <;> simp

/-! ## The invariant -/

variable [DecidableEq K]

/-- `nextExpiry` is no later than the expiry of any result that is held. -/
def Watched (c : Ttl K V) : Prop :=
  ∀ key value t, c.slots.find? key = some (.resolved ⟨value, some t⟩) → NoLater c.nextExpiry t

/-- The cache that a result comes into: what has expired is dropped if there can be any. -/
def swept (c : Ttl K V) (now : Instant) : Ttl K V := if c.isDue now then c.prune now else c

variable {c : Ttl K V} {now : Instant}

theorem watched_new (ttl : Duration) : (new ttl : Ttl K V).Watched := by
  intro key value t hslot
  cases hslot

theorem Watched.begin (h : c.Watched) (key : K) : (c.begin key).Watched := by
  intro k value t hslot
  rw [Ttl.begin, Slots.find?_begin] at hslot
  split at hslot
  · cases hslot
  · exact h k value t hslot

theorem Watched.abandon (h : c.Watched) (key : K) : (c.abandon key).Watched := by
  intro k value t hslot
  rw [Ttl.abandon, Slots.find?_abandon] at hslot
  split at hslot
  · exact h k value t (Option.filter_eq_some_iff.mp hslot).1
  · exact h k value t hslot

/-- After pruning the bound is the earliest expiry, whatever it was before. -/
theorem watched_prune (c : Ttl K V) (now : Instant) : (c.prune now).Watched := by
  intro key value t hslot
  exact noLater_earliest (Table.find?_eq_some_iff.mp hslot)

theorem Watched.swept (h : c.Watched) (now : Instant) : (c.swept now).Watched := by
  unfold Ttl.swept
  split
  · exact c.watched_prune now
  · exact h

/-- The bound is no later than the expiry of the result that arrives, nor than the others. -/
theorem Watched.resolve (h : c.Watched) (now : Instant) (key : K) (value : V) :
    (c.resolve now key value).1.Watched := by
  have hswept := h.swept now
  intro k v t hslot
  show NoLater (soonest (now.add? c.ttl) (c.swept now).nextExpiry) t
  change ((c.swept now).slots.resolve key ⟨value, now.add? c.ttl⟩).find? k = _ at hslot
  rw [Slots.find?_resolve] at hslot
  by_cases hk : key = k
  · rw [if_pos hk] at hslot
    obtain ⟨-, hexpiry⟩ : value = v ∧ now.add? c.ttl = some t := by simpa using hslot
    rw [hexpiry]
    exact noLater_soonest t _
  · rw [if_neg hk] at hslot
    exact (hswept k v t hslot).soonest _

/-! ## What is left of the other keys -/

/-- The entries of the other keys. -/
def others (c : Ttl K V) (key : K) : List (K × Slot (Dated V)) :=
  c.slots.entries.filter fun e => decide (e.1 ≠ key)

/-- **Exactly what has not expired stays**, whether or not expired results are looked for. -/
theorem Watched.entries_swept (h : c.Watched) (now : Instant) :
    (c.swept now).slots.entries = c.slots.entries.filter (!isStale now ·) := by
  unfold Ttl.swept
  by_cases hdue : c.isDue now = true
  · rw [if_pos hdue]
    rfl
  · rw [if_neg hdue]
    symm
    refine List.filter_eq_self.mpr fun e he => ?_
    rw [Bool.not_eq_true', ← Bool.not_eq_true]
    intro hstale
    -- an expired result would make the bound due
    obtain ⟨value, t, hresult, hpast⟩ := isStale_iff.mp hstale
    obtain ⟨s, hnext, hle⟩ := h e.1 value t (Table.find?_eq_some_iff.mpr (hresult ▸ he))
    exact hdue (isDue_iff.mpr ⟨s, hnext, hle.trans hpast⟩)

theorem Watched.others_resolve (h : c.Watched) (now : Instant) (key : K) (value : V) :
    (c.resolve now key value).1.others key = (c.others key).filter (!isStale now ·) := by
  show ((Table.putIn key _ (c.swept now).slots.entries).filter _) = (c.slots.entries.filter _).filter _
  rw [Table.filter_putIn, h.entries_swept, List.filter_comm]

/-- Of the other keys nothing is left that has expired. -/
theorem Watched.unexpired_resolve (h : c.Watched) (now : Instant) (key : K) (value : V) :
    ∀ e ∈ (c.resolve now key value).1.others key, isStale now e = false := by
  intro e he
  rw [h.others_resolve] at he
  simpa using (List.mem_filter.mp he).2

theorem size_resolve (c : Ttl K V) (now : Instant) (key : K) (value : V) :
    (c.resolve now key value).1.slots.size
      = 1 + ((c.resolve now key value).1.others key).length := by
  show (Table.putIn key _ (c.swept now).slots.entries).length
    = 1 + ((Table.putIn key _ (c.swept now).slots.entries).filter _).length
  rw [Table.filter_putIn, Table.length_putIn key _ (c.swept now).slots.nodup]

/-! ## Why an entry stays -/

/-- A mark is held. -/
def isMark (e : K × Slot (Dated V)) : Bool := e.2.isInFlight

/-- A result is held that never expires. -/
def isEndless (e : K × Slot (Dated V)) : Bool :=
  match e.2 with
  | .resolved ⟨_, none⟩ => true
  | _ => false

/-- A result is held that is going to expire. -/
def isUnexpired (now : Instant) (e : K × Slot (Dated V)) : Bool :=
  match e.2 with
  | .resolved ⟨_, some t⟩ => now.nanos < t.nanos
  | _ => false

omit [DecidableEq K] in
/-- What has not expired is one of the three. -/
theorem slot_of_unexpired {now : Instant} {key : K} {slot : Slot (Dated V)}
    (h : isStale now (key, slot) = false) :
    slot = .inFlight ∨ (∃ v, slot = .resolved ⟨v, none⟩)
      ∨ ∃ v expiry, slot = .resolved ⟨v, some expiry⟩ ∧ now.nanos < expiry.nanos := by
  rcases slot with _ | ⟨v, expiry⟩
  · exact .inl rfl
  · cases expiry with
    | none => exact .inr (.inl ⟨v, rfl⟩)
    | some t =>
      refine .inr (.inr ⟨v, t, rfl, ?_⟩)
      simpa [isStale, Dated.isExpired] using h

omit [DecidableEq K] in
/-- So the three make up all that has not expired. -/
theorem length_eq_of_unexpired {now : Instant} {es : List (K × Slot (Dated V))}
    (h : ∀ e ∈ es, isStale now e = false) :
    es.length = es.countP isMark + es.countP isEndless + es.countP (isUnexpired now) := by
  induction es with
  | nil => rfl
  | cons e rest ih =>
    rw [List.forall_mem_cons] at h
    have hrest := ih h.2
    obtain ⟨key, slot⟩ := e
    simp only [List.length_cons, List.countP_cons, isMark, isEndless, isUnexpired]
    rcases slot with _ | ⟨v, expiry⟩
    · simp only [Slot.isInFlight, if_true, Bool.false_eq_true, if_false]
      omega
    · cases expiry with
      | none =>
        simp only [Slot.isInFlight, if_true, Bool.false_eq_true, if_false]
        omega
      | some t =>
        have hahead : now.nanos < t.nanos := by simpa [isStale, Dated.isExpired] using h.1
        simp only [Slot.isInFlight, hahead, decide_true, if_true, Bool.false_eq_true, if_false]
        omega

end Cache.Ttl

namespace Cache

variable [DecidableEq K]

/-! ## Sessions -/

/-- The bound of a cache with a time to live is right; the others have none. -/
def Watched : Cache K V → Prop
  | .plain _ | .manual _ | .lru _ => True
  | .ttl _ timed => timed.Watched

/-- **Kept by every operation.** -/
theorem kept_watched : Kept (Watched : Cache K V → Prop) where
  lookup c clock key h := by
    cases c with
    | plain | manual | lru => trivial
    | ttl hand timed => exact h
  begin c key h := by
    cases c with
    | plain | manual | lru => trivial
    | ttl hand timed => exact Ttl.Watched.begin h key
  resolve c clock key v h := by
    cases c with
    | plain | manual | lru => trivial
    | ttl hand timed => exact Ttl.Watched.resolve h (clock.read hand) key v
  abandon c key h := by
    cases c with
    | plain | manual | lru => trivial
    | ttl hand timed => exact Ttl.Watched.abandon h key
  clear c h := by
    cases c with
    | plain | manual | lru => trivial
    | ttl => exact h
  invalidate c key h := by
    cases c with
    | plain | manual | lru => trivial
    | ttl => exact h

theorem Kept.serve {P : Cache K V → Prop} (hkept : Kept P) {c : Cache K V} (h : P c) (clock : Clock)
    (request : Request K V) : P (c.serve clock request).2 := by
  cases request with
  | lookup key => exact hkept.lookup c clock key h
  | begin key => exact hkept.begin c key h
  | resolve key value => exact hkept.resolve c clock key value h
  | abandon key => exact hkept.abandon c key h
  | contains key => exact h
  | size => exact h

/-- What no operation changes a session does not change. -/
theorem Kept.after {P : Cache K V → Prop} (hkept : Kept P) {c : Cache K V} (h : P c)
    (session : Session K V) : P (c.after session) := by
  induction session generalizing c with
  | nil => exact h
  | cons e rest ih => exact ih (hkept.serve h e.1 e.2)

/--
**Expired results do not pile up.** After every session, however the clock moves, `nextExpiry` is
missing only if no result that is held can expire, and is otherwise no later than the expiry of any.
So when a result arrives, the other keys keep exactly what has not expired: marks, results that never
expire, and results whose expiry lies ahead. The cache then holds these and the result.
-/
theorem ttl_keeps_no_garbage (hand : Clock.Hand) (ttl : Duration) (session : Session K V) :
    ∃ c : Ttl K V, ((Policy.ttl hand ttl).cache : Cache K V).after session = .ttl hand c
      ∧ (c.nextExpiry = none → ∀ key value expiry,
          c.slots.find? key ≠ some (.resolved ⟨value, some expiry⟩))
      ∧ (∀ next, c.nextExpiry = some next → ∀ key value expiry,
          c.slots.find? key = some (.resolved ⟨value, some expiry⟩) → next.nanos ≤ expiry.nanos)
      ∧ ∀ clock key value, ∃ r : Ttl K V,
          ((Cache.ttl hand c).resolve clock key value).1 = .ttl hand r
            ∧ r.others key = (c.others key).filter (!Ttl.isStale (clock.read hand) ·)
            ∧ (∀ k slot, k ≠ key → r.slots.find? k = some slot →
                slot = .inFlight ∨ (∃ v, slot = .resolved ⟨v, none⟩)
                  ∨ ∃ v expiry, slot = .resolved ⟨v, some expiry⟩
                      ∧ (clock.read hand).nanos < expiry.nanos)
            ∧ (Cache.ttl hand r).size = 1 + ((r.others key).countP Ttl.isMark
                + (r.others key).countP Ttl.isEndless
                + (r.others key).countP (Ttl.isUnexpired (clock.read hand))) := by
  have hpolicy := (kept_policy (.ttl hand ttl)).after (policy_cache (.ttl hand ttl)) session
  have hstart : ((Policy.ttl hand ttl).cache : Cache K V).Watched := Ttl.watched_new ttl
  have hwatched := kept_watched.after hstart session
  generalize ((Policy.ttl hand ttl).cache : Cache K V).after session = reached at *
  obtain ⟨c, rfl⟩ : ∃ c, reached = .ttl hand c := by
    cases reached with
    | plain | manual | lru => simp [policy] at hpolicy
    | ttl hand' c =>
      obtain ⟨rfl, -⟩ : hand' = hand ∧ c.ttl = ttl := by simpa [policy] using hpolicy
      exact ⟨c, rfl⟩
  replace hwatched : c.Watched := hwatched
  refine ⟨c, rfl, ?none, ?some, ?resolve⟩
  case none =>
    intro hnone key value expiry hslot
    obtain ⟨s, hsome, -⟩ := hwatched key value expiry hslot
    rw [hnone] at hsome
    cases hsome
  case some =>
    intro next hnext key value expiry hslot
    obtain ⟨s, hsome, hle⟩ := hwatched key value expiry hslot
    rw [hnext] at hsome
    cases hsome
    exact hle
  case resolve =>
    intro clock key value
    have hfresh := hwatched.unexpired_resolve (clock.read hand) key value
    refine ⟨_, rfl, hwatched.others_resolve (clock.read hand) key value, ?_, ?_⟩
    · intro k slot hk hslot
      have hother : (k, slot) ∈ (c.resolve (clock.read hand) key value).1.others key :=
        List.mem_filter.mpr ⟨Table.find?_eq_some_iff.mp hslot, decide_eq_true hk⟩
      exact Ttl.slot_of_unexpired (hfresh (k, slot) hother)
    · exact (c.size_resolve (clock.read hand) key value).trans
        (congrArg (1 + ·) (Ttl.length_eq_of_unexpired hfresh))

end Cache

end Recurrence
