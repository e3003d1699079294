import Recurrence.Memo.Run
import Recurrence.Proofs.Cache.View

/-!
# What memoizers hold

The view of a cache, lifted to a group of memoizers: `slot? m key` is what memoizer `m` holds for a
key. Each operation of a call is described by what it does to this view, and by nothing else, so
the four policies do not come up again in what follows.
-/

namespace Recurrence.Memo.State

open Cache (Forgets Slot)

variable {n : Nat} {K V W : Type} [DecidableEq K]

/-- What a memoizer holds for a key. -/
def slot? (s : State n K V W) (m : Fin n) (key : K) : Option (Slot V) :=
  (s.memo m).cache.slot? key

/-- A memoizer has a mark for a key. -/
def InFlight (s : State n K V W) (m : Fin n) (key : K) : Prop := s.slot? m key = some .inFlight

theorem slot?_setCache (s : State n K V W) (m m' : Fin n) (c : Cache K V) (k : K) :
    (s.setCache m c).slot? m' k = if m' = m then c.slot? k else s.slot? m' k := by
  unfold slot? setCache
  rw [memo_setMemo]
  by_cases h : m' = m <;> simp [h]

theorem slot?_start (policies : Vector Cache.Policy n) (outside : W) (m : Fin n) (key : K) :
    (start policies outside : State n K V W).slot? m key = none := by
  have hmemo : (start policies outside : State n K V W).memo m
      = ⟨(policies.get m).cache, 0⟩ := by
    show (policies.map _)[m.val] = _
    rw [Vector.getElem_map]
    rfl
  rw [slot?, hmemo]
  exact Cache.slot?_cache _ _

/-! ## Asking -/

theorem lookup_fst (s : State n K V W) (m : Fin n) (key : K) :
    (s.lookup m key).1 = ((s.memo m).cache.lookup s.clock key).1 := rfl

theorem slot?_lookup (s : State n K V W) (m m' : Fin n) (key k : K) :
    (s.lookup m key).2.slot? m' k = s.slot? m' k := by
  show (s.setCache m ((s.memo m).cache.lookup s.clock key).2.1).slot? m' k = _
  rw [slot?_setCache]
  by_cases h : m' = m
  · rw [if_pos h, Cache.slot?_lookup, h]; rfl
  · rw [if_neg h]

/-- The guard of a memoizer refuses exactly the keys it has a mark for. -/
theorem lookup_eq_inFlight_iff {s : State n K V W} {m : Fin n} {key : K} :
    (s.lookup m key).1 = .inFlight ↔ s.InFlight m key := by
  rw [lookup_fst]
  exact Cache.lookup_eq_inFlight_iff

theorem slot?_of_lookup_hit {s : State n K V W} {m : Fin n} {key : K} {v : V}
    (h : (s.lookup m key).1 = .hit v) : s.slot? m key = some (.resolved v) :=
  Cache.slot?_of_lookup_hit (by rwa [lookup_fst] at h)

omit [DecidableEq K] in
theorem setMemo_memo (s : State n K V W) (m : Fin n) : s.setMemo m (s.memo m) = s := by
  have h : s.memos.set m (s.memo m) m.isLt = s.memos := by
    show s.memos.set m s.memos[m.val] m.isLt = s.memos
    rw [Vector.set_getElem_self]
  rw [setMemo, h]

/-- A refusal leaves everything but the log as it is. -/
theorem lookup_of_inFlight {s : State n K V W} {m : Fin n} {key : K} (h : s.InFlight m key) :
    s.lookup m key = (.inFlight, { s with log := .rejected key :: s.log }) := by
  unfold lookup
  rw [Cache.lookup_of_inFlight s.clock h]
  have hsame : s.setCache m (s.memo m).cache = s := setMemo_memo s m
  simp [hsame, note]

/-! ## Beginning and ending a computation -/

theorem slot?_begin (s : State n K V W) (m m' : Fin n) (key k : K) :
    (s.begin m key).slot? m' k = if m' = m ∧ k = key then some .inFlight else s.slot? m' k := by
  unfold slot? begin
  rw [memo_setMemo]
  by_cases h : m' = m
  · subst h
    rw [if_pos rfl, Cache.slot?_begin]
    simp only [true_and, eq_comm]
  · simp [h]

/-- A result arrives; apart from that a memoizer can only forget results. -/
theorem forgets_resolve (s : State n K V W) (m m' : Fin n) (key k : K) (v : V) :
    Forgets (if m' = m ∧ k = key then some (.resolved v) else s.slot? m' k)
      ((s.resolve m key v).slot? m' k) := by
  show Forgets _ ((s.setCache m ((s.memo m).cache.resolve s.clock key v).1).slot? m' k)
  rw [slot?_setCache]
  by_cases h : m' = m
  · subst h
    rw [if_pos rfl]
    have hr := Cache.forgets_resolve (s.memo m').cache s.clock key k v
    simp only [eq_comm (a := key)] at hr
    simp only [true_and]
    exact hr
  · rw [if_neg h, if_neg fun hk => h hk.1]
    exact .same

theorem slot?_abandon (s : State n K V W) (m m' : Fin n) (key k : K) :
    (s.abandon m key).slot? m' k = if m' = m ∧ k = key
      then (s.slot? m' k).filter (!Slot.isInFlight ·) else s.slot? m' k := by
  show (s.setCache m ((s.memo m).cache.abandon key)).slot? m' k = _
  rw [slot?_setCache]
  by_cases h : m' = m
  · subst h
    rw [if_pos rfl, Cache.slot?_abandon]
    simp only [true_and, eq_comm]
    rfl
  · rw [if_neg h, if_neg fun hk => h hk.1]

/-! ## Dropping by hand -/

/-- If one cache only forgets, the whole state does. -/
theorem forgets_setCache (s : State n K V W) (m m' : Fin n) {c : Cache K V} {k : K}
    (h : Forgets ((s.memo m).cache.slot? k) (c.slot? k)) :
    Forgets (s.slot? m' k) ((s.setCache m c).slot? m' k) := by
  rw [slot?_setCache]
  by_cases hm : m' = m
  · rw [if_pos hm, hm]
    exact h
  · rw [if_neg hm]
    exact .same

theorem forgets_clear (s : State n K V W) (m m' : Fin n) (k : K) :
    Forgets (s.slot? m' k) ((s.clear m).slot? m' k) :=
  s.forgets_setCache m m' (Cache.forgets_clear _ k)

theorem forgets_invalidate (s : State n K V W) (m m' : Fin n) (key k : K) :
    Forgets (s.slot? m' k) ((s.invalidate m key).slot? m' k) :=
  s.forgets_setCache m m' (Cache.forgets_invalidate _ key k)

/-- The clock is not part of the view. -/
theorem slot?_advance {s s' : State n K V W} {d : Duration} (h : s.advance? d = some s')
    (m : Fin n) (key : K) : s'.slot? m key = s.slot? m key := by
  obtain ⟨clock, -, rfl⟩ := Option.map_eq_some_iff.1 h
  rfl

/-! ## Marks

A mark comes with the beginning of a computation and goes with its end; nothing else moves one.
-/

theorem inFlight_lookup (s : State n K V W) (m m' : Fin n) (key k : K) :
    (s.lookup m key).2.InFlight m' k ↔ s.InFlight m' k := by
  rw [InFlight, slot?_lookup]
  exact Iff.rfl

theorem inFlight_begin (s : State n K V W) (m m' : Fin n) (key k : K) :
    (s.begin m key).InFlight m' k ↔ (m' = m ∧ k = key) ∨ s.InFlight m' k := by
  rw [InFlight, slot?_begin]
  by_cases h : m' = m ∧ k = key
  · simp [h]
  · rw [if_neg h, or_iff_right h]
    exact Iff.rfl

theorem inFlight_resolve (s : State n K V W) (m m' : Fin n) (key k : K) (v : V) :
    (s.resolve m key v).InFlight m' k ↔ ¬ (m' = m ∧ k = key) ∧ s.InFlight m' k := by
  rw [InFlight, (forgets_resolve s m m' key k v).inFlight_iff]
  by_cases h : m' = m ∧ k = key
  · simp [h]
  · rw [if_neg h, and_iff_right h]
    exact Iff.rfl

theorem inFlight_abandon (s : State n K V W) (m m' : Fin n) (key k : K) :
    (s.abandon m key).InFlight m' k ↔ ¬ (m' = m ∧ k = key) ∧ s.InFlight m' k := by
  rw [InFlight, slot?_abandon]
  by_cases h : m' = m ∧ k = key
  · rw [if_pos h, Option.filter_eq_some_iff]
    simp [h, Slot.isInFlight]
  · rw [if_neg h, and_iff_right h]
    exact Iff.rfl

theorem inFlight_clear (s : State n K V W) (m m' : Fin n) (k : K) :
    (s.clear m).InFlight m' k ↔ s.InFlight m' k :=
  (forgets_clear s m m' k).inFlight_iff

theorem inFlight_invalidate (s : State n K V W) (m m' : Fin n) (key k : K) :
    (s.invalidate m key).InFlight m' k ↔ s.InFlight m' k :=
  (forgets_invalidate s m m' key k).inFlight_iff

theorem inFlight_advance {s s' : State n K V W} {d : Duration} (h : s.advance? d = some s')
    (m : Fin n) (key : K) : s'.InFlight m key ↔ s.InFlight m key := by
  rw [InFlight, slot?_advance h]
  exact Iff.rfl

/-! ## Results

What is known of the results that are held stays known of them, as long as it is known of each new
one.
-/

/-- All results that are held are good. -/
def AllGood (good : Fin n → K → V → Prop) (s : State n K V W) : Prop :=
  ∀ m key v, s.slot? m key = some (.resolved v) → good m key v

section

variable {good : Fin n → K → V → Prop} {s s' : State n K V W}

theorem allGood_start (policies : Vector Cache.Policy n) (outside : W) :
    AllGood good (start policies outside : State n K V W) := by
  intro m key v hv
  rw [slot?_start] at hv
  exact absurd hv (by simp)

theorem AllGood.of_resolved (h : AllGood good s)
    (hs : ∀ m key v, s'.slot? m key = some (.resolved v) → s.slot? m key = some (.resolved v)) :
    AllGood good s' :=
  fun m key v hv => h m key v (hs m key v hv)

theorem AllGood.of_same (h : AllGood good s) (hs : ∀ m key, s'.slot? m key = s.slot? m key) :
    AllGood good s' :=
  h.of_resolved fun m key _ hv => (hs m key).symm.trans hv

theorem AllGood.lookup (h : AllGood good s) (m : Fin n) (key : K) :
    AllGood good (s.lookup m key).2 :=
  h.of_same fun m' k => s.slot?_lookup m m' key k

theorem AllGood.begin (h : AllGood good s) (m : Fin n) (key : K) :
    AllGood good (s.begin m key) := by
  refine h.of_resolved fun m' k v hv => ?_
  rw [slot?_begin] at hv
  split at hv
  · simp at hv
  · exact hv

theorem AllGood.resolve (h : AllGood good s) {m : Fin n} {key : K} {v : V} (hv : good m key v) :
    AllGood good (s.resolve m key v) := by
  intro m' k v' hv'
  have hold := (forgets_resolve s m m' key k v).resolved hv'
  split at hold
  · rename_i hk
    obtain ⟨rfl, rfl⟩ := hk
    cases hold
    exact hv
  · exact h m' k v' hold

theorem AllGood.abandon (h : AllGood good s) (m : Fin n) (key : K) :
    AllGood good (s.abandon m key) := by
  refine h.of_resolved fun m' k v hv => ?_
  rw [slot?_abandon] at hv
  split at hv
  · exact (Option.filter_eq_some_iff.mp hv).1
  · exact hv

theorem AllGood.clear (h : AllGood good s) (m : Fin n) : AllGood good (s.clear m) :=
  h.of_resolved fun m' k _ => (s.forgets_clear m m' k).resolved

theorem AllGood.invalidate (h : AllGood good s) (m : Fin n) (key : K) :
    AllGood good (s.invalidate m key) :=
  h.of_resolved fun m' k _ => (s.forgets_invalidate m m' key k).resolved

theorem AllGood.advance (h : AllGood good s) {d : Duration} (hd : s.advance? d = some s') :
    AllGood good s' :=
  h.of_same fun m key => slot?_advance hd m key

end

/-! ## Refusals

The log tells of every call that the guard refused, and it only grows.
-/

/-- A call for the key has been refused. -/
def Refused (s : State n K V W) (key : K) : Prop := Event.rejected key ∈ s.log

theorem not_refused_start (policies : Vector Cache.Policy n) (outside : W) (key : K) :
    ¬ (start policies outside : State n K V W).Refused key :=
  List.not_mem_nil

omit [DecidableEq K] in
theorem refused_note (s : State n K V W) (events : List (Cache.Event K)) (key : K) :
    (s.note events).Refused key ↔ s.Refused key := by
  unfold Refused note
  simp

theorem refused_lookup (s : State n K V W) (m : Fin n) (key k : K) :
    (s.lookup m key).2.Refused k ↔ (s.InFlight m key ∧ k = key) ∨ s.Refused k := by
  have hlog : (s.lookup m key).2.Refused k
      ↔ (k = key ∧ (s.lookup m key).1 = .inFlight) ∨ s.Refused k := by
    rw [lookup_fst, Refused, lookup]
    rcases (s.memo m).cache.lookup s.clock key with ⟨found, cache, events⟩
    have hnote : ((s.setCache m cache).note events).Refused k ↔ s.Refused k :=
      refused_note _ events k
    cases found with
    | hit v => simpa [Refused] using hnote
    | inFlight => simpa [Refused] using or_congr Iff.rfl hnote
    | absent => simpa [Refused] using hnote
  rw [hlog, lookup_eq_inFlight_iff, and_comm]

theorem refused_resolve (s : State n K V W) (m : Fin n) (key k : K) (v : V) :
    (s.resolve m key v).Refused k ↔ s.Refused k :=
  refused_note _ _ _

omit [DecidableEq K] in
theorem refused_clear (s : State n K V W) (m : Fin n) (k : K) :
    (s.clear m).Refused k ↔ s.Refused k :=
  refused_note _ _ _

theorem refused_invalidate (s : State n K V W) (m : Fin n) (key k : K) :
    (s.invalidate m key).Refused k ↔ s.Refused k :=
  refused_note _ _ _

omit [DecidableEq K] in
theorem refused_advance {s s' : State n K V W} {d : Duration} (h : s.advance? d = some s')
    (k : K) : s'.Refused k ↔ s.Refused k := by
  obtain ⟨clock, -, rfl⟩ := Option.map_eq_some_iff.1 h
  exact Iff.rfl

end Recurrence.Memo.State
