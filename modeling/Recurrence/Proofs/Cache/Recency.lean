import Mathlib.Data.Finset.Card
import Recurrence.Proofs.Cache.Eviction
import Recurrence.Proofs.Cache.Session
import Recurrence.Proofs.Cache.View

/-!
# The most recently used results are a recency list

A cache of bounded size keeps marks and results in one table. A `Recency` keeps them apart: the
results in a list, the one touched last at the end, and the marks in a set. The order of the table
is that of the list with the marks strewn in, and no operation lets a mark come between: what moves
a result moves it behind everything, and a mark that takes the place of a result takes it out of the
list.

Eviction goes through the table and passes over the marks; seen through the list it drops from the
front until there is room.
-/

namespace Recurrence.Cache

variable {K V : Type}

/-- Results in the order of their last use, and marks. -/
@[ext]
structure Recency (K V : Type) where
  /-- The results, the one touched last at the end. -/
  results : List (K × V)
  /-- The keys being computed. -/
  marks : Finset K
  capacity : Nat

namespace Recency

variable [DecidableEq K]

def empty (capacity : Nat) : Recency K V := ⟨[], ∅, capacity⟩

/-- The results of the other keys. -/
def others (r : Recency K V) (key : K) : List (K × V) :=
  r.results.filter fun e => decide (e.1 ≠ key)

/-- How many results there is room for beside the marks; for one there always is. -/
def room (r : Recency K V) : Nat := max 1 (r.capacity - r.marks.card)

/-- Drops results from the front until there is room for the others. -/
def shrink (r : Recency K V) : Recency K V :=
  { r with results := r.results.drop (r.results.length - r.room) }

/-- A result is touched when a lookup hits it. -/
def lookup (r : Recency K V) (key : K) : Lookup V × Recency K V :=
  match Table.findIn key r.results with
  | some value => (.hit value, { r with results := r.others key ++ [(key, value)] })
  | none => (if key ∈ r.marks then .inFlight else .absent, r)

def begin (r : Recency K V) (key : K) : Recency K V :=
  { r with results := r.others key, marks := insert key r.marks }

/-- A result that arrives, before room is made for it. -/
def arrive (r : Recency K V) (key : K) (value : V) : Recency K V :=
  { r with results := r.others key ++ [(key, value)], marks := r.marks.erase key }

def resolve (r : Recency K V) (key : K) (value : V) : Recency K V := (r.arrive key value).shrink

def abandon (r : Recency K V) (key : K) : Recency K V := { r with marks := r.marks.erase key }

/-- The answer of a recency list, and the list it leaves. -/
def serve (r : Recency K V) : Request K V → Reply V × Recency K V
  | .lookup key => (.found (r.lookup key).1, (r.lookup key).2)
  | .begin key => (.done, r.begin key)
  | .resolve key value => (.done, r.resolve key value)
  | .abandon key => (.done, r.abandon key)
  | .contains key => (.held (decide (key ∈ r.results.map Prod.fst)), r)
  | .size => (.count (r.results.length + r.marks.card), r)

/-- What a session leaves. -/
def after (r : Recency K V) : Session K V → Recency K V
  | [] => r
  | (_, request) :: rest => (r.serve request).2.after rest

/-- The answers of a session. -/
def replies (r : Recency K V) : Session K V → List (Reply V)
  | [] => []
  | (_, request) :: rest => (r.serve request).1 :: (r.serve request).2.replies rest

end Recency

namespace Lru

/-! ## The list of a cache -/

variable [DecidableEq K]

/-- The results and the marks of a cache. -/
def recency (c : Lru K V) : Recency K V :=
  ⟨resultsOf c.slots.entries, (marksOf c.slots.entries).toFinset, c.capacity⟩

variable (c : Lru K V) (key : K) (value : V)

theorem mem_marks {c : Lru K V} {key : K} :
    key ∈ c.recency.marks ↔ c.slots.find? key = some .inFlight := by
  rw [recency, List.mem_toFinset, mem_marksOf, Table.find?_eq_some_iff]

theorem nodup_keys_results : (c.recency.results.map Prod.fst).Nodup :=
  c.slots.nodup.sublist (keys_resultsOf_sublist _)

theorem findIn_results {c : Lru K V} {key : K} {value : V} :
    Table.findIn key c.recency.results = some value
      ↔ c.slots.find? key = some (.resolved value) := by
  rw [Table.findIn_eq_some_iff c.nodup_keys_results, Table.find?_eq_some_iff]
  exact mem_resultsOf

theorem mem_keys_results {c : Lru K V} {key : K} :
    key ∈ c.recency.results.map Prod.fst
      ↔ ∃ value, c.slots.find? key = some (.resolved value) := by
  rw [List.mem_map]
  constructor
  · rintro ⟨⟨k, value⟩, hmem, rfl⟩
    exact ⟨value, Table.find?_eq_some_iff.mpr (mem_resultsOf.mp hmem)⟩
  · rintro ⟨value, hfind⟩
    exact ⟨(key, value), mem_resultsOf.mpr (Table.find?_eq_some_iff.mp hfind), rfl⟩

theorem card_marks : c.recency.marks.card = (marksOf c.slots.entries).length :=
  List.toFinset_card_of_nodup (c.slots.nodup.sublist (marksOf_sublist _))

/-- Nothing is held that is neither a result nor a mark. -/
theorem size_eq : c.slots.size = c.recency.results.length + c.recency.marks.card := by
  rw [card_marks, Table.size, ← length_resultsOf_add_marksOf]
  rfl

/-- The results of the other keys are the results of the entries of other keys. -/
theorem others_eq : c.recency.others key
    = resultsOf (c.slots.entries.filter fun e => decide (e.1 ≠ key)) := by
  show (resultsOf c.slots.entries).filter _ = _
  induction c.slots.entries with
  | nil => rfl
  | cons e rest ih =>
    obtain ⟨k, slot⟩ := e
    by_cases hk : k = key
    · cases slot <;> simpa [hk] using ih
    · cases slot <;> simpa [hk] using ih

/-- A key without a result has none to lose. -/
theorem others_of_not_resolved {c : Lru K V} {key : K}
    (h : ∀ value, c.slots.find? key ≠ some (.resolved value)) :
    c.recency.others key = c.recency.results := by
  refine List.filter_eq_self.mpr fun e hmem => decide_eq_true fun heq => ?_
  obtain ⟨value, hfind⟩ := mem_keys_results.mp (List.mem_map.mpr ⟨e, hmem, heq⟩)
  exact h value hfind

/-- A mark takes the place of a result, and the other results stay where they are. -/
theorem resultsOf_putIn_mark {key : K} {es : List (K × Slot V)} (hes : (es.map Prod.fst).Nodup) :
    resultsOf (Table.putIn key .inFlight es)
      = resultsOf (es.filter fun e => decide (e.1 ≠ key)) := by
  induction es with
  | nil => rfl
  | cons e rest ih =>
    obtain ⟨k, slot⟩ := e
    rw [List.map_cons, List.nodup_cons] at hes
    by_cases hk : k = key
    · subst hk
      have hrest : (rest.filter fun e => decide (e.1 ≠ k)) = rest :=
        List.filter_eq_self.mpr fun e hmem => decide_eq_true fun heq =>
          hes.1 (List.mem_map.mpr ⟨e, hmem, heq⟩)
      rw [Table.putIn, if_pos rfl, List.filter_cons_of_neg (by simp), hrest, resultsOf_mark]
    · rw [Table.putIn, if_neg hk, List.filter_cons_of_pos (by simp [hk])]
      cases slot with
      | inFlight => exact ih hes.2
      | resolved value => exact congrArg ((k, value) :: ·) (ih hes.2)

/-! ## The operations -/

/-- A result that comes in at the end. -/
theorem recency_putLast :
    ({ c with slots := c.slots.putLast key (.resolved value) } : Lru K V).recency
      = c.recency.arrive key value := by
  refine Recency.ext ?_ (Finset.ext fun k => ?_) rfl
  · show resultsOf (c.slots.putLast key (.resolved value)).entries = c.recency.others key ++ _
    rw [Table.entries_putLast, resultsOf_append, ← others_eq]
    rfl
  · rw [mem_marks, Recency.arrive, Finset.mem_erase, mem_marks]
    show (c.slots.putLast key (.resolved value)).find? k = _ ↔ _
    rw [Table.find?_putLast]
    by_cases hk : key = k <;> simp [hk, eq_comm]

theorem recency_lookup :
    (c.lookup key).1 = (c.recency.lookup key).1
      ∧ (c.lookup key).2.recency = (c.recency.lookup key).2 := by
  unfold Lru.lookup Recency.lookup
  cases hslot : c.slots.find? key with
  | none =>
    have hresult : Table.findIn key c.recency.results = none := by
      rw [Option.eq_none_iff_forall_ne_some]
      intro value h
      rw [findIn_results, hslot] at h
      cases h
    have hmark : key ∉ c.recency.marks := by simp [mem_marks, hslot]
    rw [hresult]
    exact ⟨(if_neg hmark).symm, rfl⟩
  | some slot =>
    cases slot with
    | inFlight =>
      have hresult : Table.findIn key c.recency.results = none := by
        rw [Option.eq_none_iff_forall_ne_some]
        intro value h
        rw [findIn_results, hslot] at h
        cases h
      have hmark : key ∈ c.recency.marks := mem_marks.mpr hslot
      rw [hresult]
      exact ⟨(if_pos hmark).symm, rfl⟩
    | resolved value =>
      have hmark : key ∉ c.recency.marks := by simp [mem_marks, hslot]
      rw [findIn_results.mpr hslot]
      refine ⟨rfl, ?_⟩
      rw [recency_putLast, Recency.arrive, Finset.erase_eq_of_notMem hmark]

theorem recency_begin : (c.begin key).recency = c.recency.begin key := by
  refine Recency.ext ?_ (Finset.ext fun k => ?_) rfl
  · show resultsOf (Table.putIn key .inFlight c.slots.entries) = c.recency.others key
    rw [resultsOf_putIn_mark c.slots.nodup, others_eq]
  · rw [mem_marks, Recency.begin, Finset.mem_insert, mem_marks]
    show (c.slots.begin key).find? k = _ ↔ _
    rw [Slots.find?_begin]
    by_cases hk : key = k <;> simp [hk, eq_comm]

theorem recency_abandon : (c.abandon key).recency = c.recency.abandon key := by
  refine Recency.ext ?_ (Finset.ext fun k => ?_) rfl
  · show resultsOf (c.slots.abandon key).entries = c.recency.results
    unfold Slots.abandon
    split
    · rename_i hslot
      show resultsOf (c.slots.entries.filter _) = _
      rw [← others_eq, others_of_not_resolved (by simp [hslot])]
    · rfl
  · rw [mem_marks, Recency.abandon, Finset.mem_erase, mem_marks]
    show (c.slots.abandon key).find? k = _ ↔ _
    rw [Slots.find?_abandon]
    by_cases hk : key = k
    · rw [if_pos hk]
      cases hslot : c.slots.find? k with
      | none => simp
      | some slot => cases slot <;> simp [Slot.isInFlight, hk]
    · simp [hk, eq_comm]

/-- **Eviction drops from the front of the list** until there is room beside the marks. -/
theorem recency_resolve :
    (c.resolve key value).1.recency = c.recency.resolve key value
      ∧ (c.recency.arrive key value).results.map Prod.fst
          = (c.resolve key value).2 ++ (c.recency.resolve key value).results.map Prod.fst := by
  have harrive := c.recency_putLast key value
  have hsize := size_eq { c with slots := c.slots.putLast key (.resolved value) }
  rw [harrive] at hsize
  have hentries := c.slots.entries_putLast key (.resolved value)
  obtain ⟨hgone, hresults, hmarks⟩ := evict_append
    ((c.slots.putLast key (.resolved value)).size - c.capacity)
    (c.slots.entries.filter fun e => decide (e.1 ≠ key)) (key, .resolved value)
  rw [← hentries, ← others_eq] at hgone hresults
  rw [← hentries] at hmarks
  -- as many as must go for the capacity, or all but the last
  set excess := (c.slots.putLast key (.resolved value)).size - c.capacity with hexcess
  set r := c.recency.arrive key value with hr
  have hsplit : r.results = c.recency.others key ++ [(key, value)] := rfl
  have hlength : r.results.length = (c.recency.others key).length + 1 := by simp [hsplit]
  have hcount : r.results.length - r.room = min excess (c.recency.others key).length := by
    have hcapacity : r.capacity = c.capacity := rfl
    rw [hexcess, hsize, Recency.room, hcapacity]
    omega
  have hdrop : (c.recency.resolve key value).results
      = (c.recency.others key).drop excess ++ [(key, value)] := by
    show r.results.drop (r.results.length - r.room) = _
    rw [hcount, hsplit, List.drop_append_of_le_length (Nat.min_le_right _ _)]
    congr 1
    rw [List.drop_eq_drop_iff]
    omega
  constructor
  · refine Recency.ext (hresults.trans hdrop.symm) ?_ rfl
    show (marksOf (evict excess _).2).toFinset = r.marks
    rw [hmarks, ← harrive]
    rfl
  · show _ = (evict excess _).1 ++ _
    rw [hgone, hdrop, ← List.map_append, ← List.append_assoc, List.take_append_drop, hsplit]

/-! ## Sessions -/

theorem contains_eq : (Cache.lru c).contains clock key
    = decide (key ∈ c.recency.results.map Prod.fst) := by
  show c.slots.contains key = _
  rw [Bool.eq_iff_iff, decide_eq_true_iff, mem_keys_results, Slots.contains]
  cases c.slots.find? key with
  | none => simp
  | some slot => cases slot <;> simp

/-- **Every request is answered from the list.** -/
theorem serve_eq (clock : Clock) (request : Request K V) :
    ∃ c', (Cache.lru c).serve clock request = ((c.recency.serve request).1, .lru c')
      ∧ c'.recency = (c.recency.serve request).2 := by
  cases request with
  | lookup key =>
    obtain ⟨hanswer, hrecency⟩ := c.recency_lookup key
    exact ⟨_, congrArg (fun answer => (Reply.found answer, _)) hanswer, hrecency⟩
  | begin key => exact ⟨_, rfl, c.recency_begin key⟩
  | resolve key value => exact ⟨_, rfl, (c.recency_resolve key value).1⟩
  | abandon key => exact ⟨_, rfl, c.recency_abandon key⟩
  | contains key => exact ⟨c, congrArg (fun b => (Reply.held b, _)) (c.contains_eq key), rfl⟩
  | size => exact ⟨c, congrArg (fun n => (Reply.count n, _)) c.size_eq, rfl⟩

theorem replies_eq (session : Session K V) :
    (Cache.lru c).replies session = c.recency.replies session := by
  induction session generalizing c with
  | nil => rfl
  | cons e rest ih =>
    obtain ⟨clock, request⟩ := e
    obtain ⟨c', hserve, hrecency⟩ := c.serve_eq clock request
    rw [Cache.replies, Recency.replies, hserve, ih, hrecency]

theorem after_eq (session : Session K V) :
    ∃ c', (Cache.lru c).after session = .lru c' ∧ c'.recency = c.recency.after session := by
  induction session generalizing c with
  | nil => exact ⟨c, rfl, rfl⟩
  | cons e rest ih =>
    obtain ⟨clock, request⟩ := e
    obtain ⟨c₁, hserve, hrecency⟩ := c.serve_eq clock request
    obtain ⟨c₂, hafter, hrecency₂⟩ := ih c₁
    refine ⟨c₂, ?_, ?_⟩
    · rw [Cache.after, hserve, hafter]
    · rw [Recency.after, ← hrecency, hrecency₂]

end Lru

/-! ## Bounds -/

namespace Recency

variable [DecidableEq K]

/-- The capacity, and no more results than that. -/
structure Bounded (bound : Nat) (r : Recency K V) : Prop where
  capacity : r.capacity = bound
  results : r.results.length ≤ bound

variable {r : Recency K V} {bound : Nat}

theorem length_others_le (r : Recency K V) (key : K) :
    (r.others key).length ≤ r.results.length := List.length_filter_le _ _

/-- A touched result was among the results before. -/
theorem length_others_lt {key : K} {value : V} (h : Table.findIn key r.results = some value) :
    (r.others key).length < r.results.length := by
  have hmem : key ∈ r.results.map Prod.fst := by
    by_contra hnot
    rw [Table.findIn_eq_none_iff.mpr hnot] at h
    cases h
  obtain ⟨e, he, rfl⟩ := List.mem_map.mp hmem
  exact List.length_filter_lt_length_iff_exists.mpr ⟨e, he, by simp⟩

omit [DecidableEq K] in
theorem bounded_empty (bound : Nat) : Bounded bound (.empty bound : Recency K V) :=
  ⟨rfl, Nat.zero_le _⟩

theorem Bounded.serve (h : Bounded bound r) (hpos : 1 ≤ bound) (request : Request K V) :
    Bounded bound (r.serve request).2 := by
  have hothers := r.length_others_le
  have hresults := h.results
  cases request with
  | lookup key =>
    show Bounded bound (r.lookup key).2
    unfold Recency.lookup
    split
    · rename_i value hfind
      refine ⟨h.capacity, ?_⟩
      have hlt := length_others_lt hfind
      rw [List.length_append, List.length_singleton]
      omega
    · exact h
  | begin key => exact ⟨h.capacity, (hothers key).trans hresults⟩
  | resolve key value =>
    refine ⟨h.capacity, ?_⟩
    show ((r.arrive key value).results.drop _).length ≤ bound
    have hcapacity : (r.arrive key value).capacity = bound := h.capacity
    rw [List.length_drop, room]
    omega
  | abandon key => exact ⟨h.capacity, hresults⟩
  | contains key => exact h
  | size => exact h

theorem Bounded.after (h : Bounded bound r) (hpos : 1 ≤ bound) (session : Session K V) :
    Bounded bound (r.after session) := by
  induction session generalizing r with
  | nil => exact h
  | cons e rest ih => exact ih (h.serve hpos e.2)

end Recency

namespace Lru

variable [DecidableEq K]

/-- The result that has arrived stays. -/
theorem lookup_resolve (c : Lru K V) (key : K) (value : V) :
    ((c.resolve key value).1.lookup key).1 = .hit value := by
  have hlast : (key, value) ∈ (c.recency.resolve key value).results := by
    have hroom : (c.recency.arrive key value).results.length
        - (c.recency.arrive key value).room ≤ (c.recency.others key).length := by
      show (c.recency.others key ++ [(key, value)]).length - max 1 _ ≤ _
      rw [List.length_append, List.length_singleton]
      omega
    show (key, value) ∈ (c.recency.others key ++ [(key, value)]).drop _
    rw [List.drop_append_of_le_length hroom]
    simp
  rw [← (c.recency_resolve key value).1] at hlast
  have hfind := findIn_results.mp
    ((Table.findIn_eq_some_iff (nodup_keys_results _)).mpr hlast)
  rw [lookup_fst, Slots.lookup, hfind]

theorem lookup_eq_inFlight_iff {c : Lru K V} {key : K} :
    (c.lookup key).1 = .inFlight ↔ key ∈ c.recency.marks := by
  rw [lookup_fst, Slots.lookup_eq_inFlight_iff, mem_marks]

end Lru

/-! ## The policy -/

variable [DecidableEq K]

/--
**A cache of bounded size is a recency list.** Whatever is asked of it, it answers as the list does.
It never holds more results than its capacity. When a result arrives, the eviction loop ends, the
keys evicted are the first ones of the list, so those touched longest ago; the result that has just
arrived stays, and so does every mark.
-/
theorem lru_replies_eq_recency (capacity : Nat) (hpos : 1 ≤ capacity) (session : Session K V) :
    ((Policy.lru capacity).cache : Cache K V).replies session
        = (Recency.empty capacity).replies session
      ∧ ∃ c : Lru K V, (Policy.lru capacity).cache.after session = .lru c
          ∧ c.recency = (Recency.empty capacity).after session
          ∧ c.recency.results.length ≤ capacity
          ∧ ∀ key value, (c.resolve key value).1.recency = c.recency.resolve key value
              ∧ Lru.Evicts capacity (c.slots.putLast key (.resolved value)).entries
                  (c.resolve key value).2 (c.resolve key value).1.slots.entries
              ∧ (c.recency.arrive key value).results.map Prod.fst
                  = (c.resolve key value).2
                    ++ (c.resolve key value).1.recency.results.map Prod.fst
              ∧ ((c.resolve key value).1.lookup key).1 = .hit value
              ∧ ∀ k ≠ key, (c.lookup k).1 = .inFlight →
                  ((c.resolve key value).1.lookup k).1 = .inFlight := by
  refine ⟨(Lru.new capacity).replies_eq session, ?_⟩
  obtain ⟨c, hafter, hrecency⟩ := (Lru.new capacity).after_eq session
  have hbounded := (Recency.bounded_empty (K := K) (V := V) capacity).after hpos session
  have hempty : (Lru.new capacity : Lru K V).recency = .empty capacity := rfl
  rw [hempty] at hrecency
  rw [← hrecency] at hbounded
  refine ⟨c, hafter, hrecency, hbounded.results, fun key value => ?_⟩
  obtain ⟨hresolve, hgone⟩ := c.recency_resolve key value
  refine ⟨hresolve, ?loop, ?_, c.lookup_resolve key value, fun k hk hmark => ?marks⟩
  case loop =>
    have hcapacity : c.capacity = capacity := hbounded.capacity
    rw [← hcapacity]
    exact Lru.evicts_evict _ _
  case marks =>
    rw [Lru.lookup_eq_inFlight_iff] at hmark ⊢
    rw [hresolve]
    exact Finset.mem_erase.mpr ⟨hk, hmark⟩
  · rw [hgone, hresolve]

/-- A mark and three results. The first result is touched before the third one arrives, so in a
cache of three it is the second one that has to go. -/
def touched : Session Nat Nat :=
  [.begin 9, .resolve 1 10, .resolve 2 20, .lookup 1, .resolve 3 30, .contains 1, .contains 2,
    .lookup 3, .lookup 9, .abandon 9, .resolve 1 11, .size].map fun request => (.start, request)

theorem lru_replies_eq_recency_touched : 1 ≤ 3
    ∧ ((Policy.lru 3).cache : Cache Nat Nat).replies touched
      = [.done, .done, .done, .found (.hit 10), .done, .held true, .held false, .found (.hit 30),
          .found .inFlight, .done, .done, .count 2] := by
  obtain ⟨hreplies, -⟩ := lru_replies_eq_recency 3 (by decide) touched
  exact ⟨by decide, hreplies.trans (by decide +kernel)⟩

end Recurrence.Cache
