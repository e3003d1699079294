/-!
# Ordered tables

A finite map that remembers the order of its entries: a new key goes to the end, and a key that is
written again keeps its place. The view of a table is `find?`; the lemmas say what each operation
does to it.
-/

namespace Recurrence

/-- A finite map with an order. -/
structure Table (K V : Type) where
  entries : List (K × V)
  nodup : (entries.map Prod.fst).Nodup

namespace Table

variable {K V : Type} [DecidableEq K]

/-- The value of a key in a list of entries. -/
def findIn (key : K) : List (K × V) → Option V
  | [] => none
  | (k, v) :: rest => if k = key then some v else findIn key rest

/-- Replaces the value of a key, or adds the key at the end. -/
def putIn (key : K) (value : V) : List (K × V) → List (K × V)
  | [] => [(key, value)]
  | (k, v) :: rest => if k = key then (key, value) :: rest else (k, v) :: putIn key value rest

omit [DecidableEq K] in
theorem nodup_of_sublist {l l' : List (K × V)} (h : l'.Sublist l)
    (hl : (l.map Prod.fst).Nodup) : (l'.map Prod.fst).Nodup :=
  hl.sublist (h.map Prod.fst)

theorem mem_keys_putIn {key k : K} {value : V} {l : List (K × V)} :
    k ∈ (putIn key value l).map Prod.fst ↔ k = key ∨ k ∈ l.map Prod.fst := by
  induction l with
  | nil => simp [putIn]
  | cons e rest ih =>
    obtain ⟨k', v'⟩ := e
    by_cases h : k' = key
    · subst h; simp [putIn]
    · rw [putIn, if_neg h, List.map_cons, List.mem_cons, ih, List.map_cons, List.mem_cons]
      exact ⟨fun h => by rcases h with h | h | h <;> simp [h],
        fun h => by rcases h with h | h | h <;> simp [h]⟩

theorem nodup_putIn {key : K} {value : V} {l : List (K × V)}
    (hl : (l.map Prod.fst).Nodup) : ((putIn key value l).map Prod.fst).Nodup := by
  induction l with
  | nil => simp [putIn]
  | cons e rest ih =>
    obtain ⟨k, v⟩ := e
    rw [List.map_cons, List.nodup_cons] at hl
    by_cases h : k = key
    · subst h; rw [putIn, if_pos rfl, List.map_cons, List.nodup_cons]; exact hl
    · rw [putIn, if_neg h, List.map_cons, List.nodup_cons, mem_keys_putIn]
      refine ⟨fun hk => ?_, ih hl.2⟩
      rcases hk with hk | hk
      · exact h hk
      · exact hl.1 hk

theorem findIn_putIn {key k : K} {value : V} {l : List (K × V)} :
    findIn k (putIn key value l) = if key = k then some value else findIn k l := by
  induction l with
  | nil => rfl
  | cons e rest ih =>
    obtain ⟨k', v'⟩ := e
    by_cases h : k' = key
    · subst h
      rw [putIn, if_pos rfl, findIn, findIn]
      by_cases hk : k' = k <;> simp [hk]
    · rw [putIn, if_neg h, findIn, ih, findIn]
      by_cases hk : k' = k
      · have hne : key ≠ k := fun he => h (hk.trans he.symm)
        simp [hk, hne]
      · simp [hk]

theorem findIn_eq_none_iff {key : K} {l : List (K × V)} :
    findIn key l = none ↔ key ∉ l.map Prod.fst := by
  induction l with
  | nil => simp [findIn]
  | cons e rest ih =>
    obtain ⟨k, v⟩ := e
    by_cases h : k = key
    · simp [findIn, h]
    · have h' : key ≠ k := fun he => h he.symm
      rw [findIn, if_neg h, ih, List.map_cons, List.mem_cons]
      simp [h']

theorem findIn_eq_some_iff {key : K} {value : V} {l : List (K × V)}
    (hl : (l.map Prod.fst).Nodup) : findIn key l = some value ↔ (key, value) ∈ l := by
  induction l with
  | nil => simp [findIn]
  | cons e rest ih =>
    obtain ⟨k, v⟩ := e
    rw [List.map_cons, List.nodup_cons] at hl
    rw [findIn, List.mem_cons, Prod.mk.injEq]
    by_cases h : k = key
    · subst h
      have hrest : (k, value) ∉ rest := fun hmem => hl.1 (List.mem_map.mpr ⟨_, hmem, rfl⟩)
      simp [hrest, eq_comm]
    · rw [if_neg h, ih hl.2]
      simp [Ne.symm h]

theorem findIn_filter {key : K} {p : K × V → Bool} {l : List (K × V)}
    (hl : (l.map Prod.fst).Nodup) :
    findIn key (l.filter p) = (findIn key l).filter fun v => p (key, v) := by
  induction l with
  | nil => rfl
  | cons e rest ih =>
    obtain ⟨k, v⟩ := e
    rw [List.map_cons, List.nodup_cons] at hl
    have ih := ih hl.2
    by_cases h : k = key
    · subst h
      have hrest : findIn k rest = none := findIn_eq_none_iff.2 hl.1
      rw [hrest] at ih
      rw [findIn, if_pos rfl, Option.filter_some]
      by_cases hp : p (k, v) = true
      · rw [List.filter_cons_of_pos hp, findIn, if_pos rfl, if_pos hp]
      · rw [List.filter_cons_of_neg hp, ih, if_neg hp, Option.filter_none]
    · rw [findIn, if_neg h, ← ih]
      by_cases hp : p (k, v) = true
      · rw [List.filter_cons_of_pos hp, findIn, if_neg h]
      · rw [List.filter_cons_of_neg hp]

theorem putIn_eq_append {key : K} {value : V} {l : List (K × V)}
    (h : key ∉ l.map Prod.fst) : putIn key value l = l ++ [(key, value)] := by
  induction l with
  | nil => rfl
  | cons e rest ih =>
    obtain ⟨k, v⟩ := e
    rw [List.map_cons, List.mem_cons, not_or] at h
    rw [putIn, if_neg fun he => h.1 he.symm, ih h.2, List.cons_append]

/-- A table without entries. -/
def empty : Table K V := ⟨[], List.nodup_nil⟩

/-- The value of a key. -/
def find? (t : Table K V) (key : K) : Option V := findIn key t.entries

@[simp] theorem find?_empty (key : K) : (empty : Table K V).find? key = none := rfl

theorem find?_eq_none_iff {t : Table K V} {key : K} :
    t.find? key = none ↔ key ∉ t.entries.map Prod.fst := findIn_eq_none_iff

theorem find?_eq_some_iff {t : Table K V} {key : K} {value : V} :
    t.find? key = some value ↔ (key, value) ∈ t.entries := findIn_eq_some_iff t.nodup

/-- How many keys there are. -/
def size (t : Table K V) : Nat := t.entries.length

/-- Gives a key a value; a new key goes to the end. -/
def put (t : Table K V) (key : K) (value : V) : Table K V :=
  ⟨putIn key value t.entries, nodup_putIn t.nodup⟩

theorem find?_put (t : Table K V) (key k : K) (value : V) :
    (t.put key value).find? k = if key = k then some value else t.find? k := findIn_putIn

/-- Some of a table's entries, in their order. -/
def restrict (t : Table K V) (l : List (K × V)) (h : l.Sublist t.entries) : Table K V :=
  ⟨l, nodup_of_sublist h t.nodup⟩

/-- The entries that satisfy a test. -/
def filter (t : Table K V) (p : K × V → Bool) : Table K V :=
  t.restrict (t.entries.filter p) List.filter_sublist

theorem find?_filter (t : Table K V) (p : K × V → Bool) (k : K) :
    (t.filter p).find? k = (t.find? k).filter fun v => p (k, v) := findIn_filter t.nodup

/-- Drops a key. -/
def erase (t : Table K V) (key : K) : Table K V := t.filter fun e => decide (e.1 ≠ key)

theorem find?_erase (t : Table K V) (key k : K) :
    (t.erase key).find? k = if key = k then none else t.find? k := by
  rw [erase, find?_filter]
  by_cases h : key = k
  · rw [if_pos h]
    cases t.find? k <;> simp [h]
  · have h' : k ≠ key := fun he => h he.symm
    rw [if_neg h]
    cases t.find? k <;> simp [h']

/-- Gives a key a value and moves it to the end. -/
def putLast (t : Table K V) (key : K) (value : V) : Table K V := (t.erase key).put key value

theorem find?_putLast (t : Table K V) (key k : K) (value : V) :
    (t.putLast key value).find? k = if key = k then some value else t.find? k := by
  rw [putLast, find?_put, find?_erase]
  by_cases h : key = k <;> simp [h]

/-- The key comes to stand behind all others, which keep their order. -/
theorem entries_putLast (t : Table K V) (key : K) (value : V) :
    (t.putLast key value).entries
      = (t.entries.filter fun e => decide (e.1 ≠ key)) ++ [(key, value)] := by
  have h : key ∉ ((t.erase key).entries).map Prod.fst := by
    rw [← find?_eq_none_iff, find?_erase, if_pos rfl]
  exact putIn_eq_append h

end Table

end Recurrence
