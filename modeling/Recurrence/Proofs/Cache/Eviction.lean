import Mathlib.Data.List.Basic
import Recurrence.Cache.Lru

/-!
# Eviction

The entries of a bounded cache are results and marks. Eviction goes through them once and takes the
first results it meets, as many as there are entries too many; it passes over the marks, and the
last entry it never takes. That is a loop which takes one result in each round (`evicts_evict`), and
it leaves the marks alone (`evict_append`).
-/

namespace Recurrence.Cache

variable {K V : Type}

namespace Lru

/-! ## Results and marks -/

/-- The result in an entry. -/
def result? : K × Slot V → Option (K × V)
  | (_, .inFlight) => none
  | (key, .resolved value) => some (key, value)

/-- The results among entries, in their order. -/
def resultsOf (es : List (K × Slot V)) : List (K × V) := es.filterMap result?

/-- The marks among entries, in their order. -/
def marksOf (es : List (K × Slot V)) : List K :=
  (es.filter fun e => e.2.isInFlight).map Prod.fst

@[simp] theorem resultsOf_nil : resultsOf ([] : List (K × Slot V)) = [] := rfl

@[simp] theorem resultsOf_mark (key : K) (es : List (K × Slot V)) :
    resultsOf ((key, .inFlight) :: es) = resultsOf es := rfl

@[simp] theorem resultsOf_result (key : K) (value : V) (es : List (K × Slot V)) :
    resultsOf ((key, .resolved value) :: es) = (key, value) :: resultsOf es := rfl

@[simp] theorem marksOf_nil : marksOf ([] : List (K × Slot V)) = [] := rfl

@[simp] theorem marksOf_mark (key : K) (es : List (K × Slot V)) :
    marksOf ((key, .inFlight) :: es) = key :: marksOf es := rfl

@[simp] theorem marksOf_result (key : K) (value : V) (es : List (K × Slot V)) :
    marksOf ((key, .resolved value) :: es) = marksOf es := rfl

theorem resultsOf_append (es es' : List (K × Slot V)) :
    resultsOf (es ++ es') = resultsOf es ++ resultsOf es' := List.filterMap_append

/-- An entry is one or the other. -/
theorem length_resultsOf_add_marksOf (es : List (K × Slot V)) :
    (resultsOf es).length + (marksOf es).length = es.length := by
  induction es with
  | nil => rfl
  | cons e rest ih =>
    obtain ⟨key, slot⟩ := e
    cases slot with
    | inFlight => simp only [resultsOf_mark, marksOf_mark, List.length_cons]; omega
    | resolved value => simp only [resultsOf_result, marksOf_result, List.length_cons]; omega

theorem mem_resultsOf {es : List (K × Slot V)} {key : K} {value : V} :
    (key, value) ∈ resultsOf es ↔ (key, .resolved value) ∈ es := by
  induction es with
  | nil => simp
  | cons e rest ih =>
    obtain ⟨k, slot⟩ := e
    cases slot with
    | inFlight => simp [ih]
    | resolved v => simp [ih]

theorem mem_marksOf {es : List (K × Slot V)} {key : K} :
    key ∈ marksOf es ↔ (key, .inFlight) ∈ es := by
  induction es with
  | nil => simp
  | cons e rest ih =>
    obtain ⟨k, slot⟩ := e
    cases slot with
    | inFlight => simp [ih]
    | resolved v => simp [ih]

theorem keys_resultsOf_sublist (es : List (K × Slot V)) :
    ((resultsOf es).map Prod.fst).Sublist (es.map Prod.fst) := by
  induction es with
  | nil => exact .slnil
  | cons e rest ih =>
    obtain ⟨k, slot⟩ := e
    cases slot with
    | inFlight => exact ih.cons _
    | resolved v => exact ih.cons_cons _

theorem marksOf_sublist (es : List (K × Slot V)) : (marksOf es).Sublist (es.map Prod.fst) :=
  List.filter_sublist.map _

/-! ## Eviction -/

/-- Takes away the first result, if it is not the last entry; gives its key and what stays. -/
def firstOut? : List (K × Slot V) → Option (K × List (K × Slot V))
  | [] | [_] => none
  | (key, .resolved _) :: rest => some (key, rest)
  | e :: rest => (firstOut? rest).map fun out => (out.1, e :: out.2)

/-- The loop that evicts: as long as there are too many entries, the first result goes, unless it is
the last entry. It gives the keys that have gone and the entries that stay. -/
inductive Evicts (capacity : Nat) :
    List (K × Slot V) → List K → List (K × Slot V) → Prop
  | enough {es} : es.length ≤ capacity → Evicts capacity es [] es
  | marked {es} : firstOut? es = none → Evicts capacity es [] es
  | out {es key es' gone kept} : capacity < es.length → firstOut? es = some (key, es') →
      Evicts capacity es' gone kept → Evicts capacity es (key :: gone) kept

/-- A round takes one entry away. -/
theorem length_of_firstOut? {es es' : List (K × Slot V)} {key : K}
    (h : firstOut? es = some (key, es')) : es.length = es'.length + 1 := by
  fun_induction firstOut? es generalizing es' with
  | case1 | case2 => simp at h
  | case3 => cases h; rfl
  | case4 e rest _ _ ih =>
    obtain ⟨out, hout, heq⟩ := Option.map_eq_some_iff.mp h
    cases heq
    rw [List.length_cons, ih hout, List.length_cons]

/-- A mark at the front stays there. -/
theorem evict_mark (excess : Nat) (key : K) (es : List (K × Slot V)) :
    evict excess ((key, .inFlight) :: es)
      = ((evict excess es).1, (key, .inFlight) :: (evict excess es).2) := by
  rcases excess with _ | excess
  · simp [evict]
  rcases es with _ | ⟨e, rest⟩
  · simp [evict]
  · rw [evict]
    simp

/-- A result at the front goes, if it is not the last entry. -/
theorem evict_result (excess : Nat) (key : K) (value : V) {es : List (K × Slot V)} (hne : es ≠ []) :
    evict (excess + 1) ((key, .resolved value) :: es)
      = (key :: (evict excess es).1, (evict excess es).2) := by
  rcases es with _ | ⟨e, rest⟩
  · exact absurd rfl hne
  · rw [evict]
    simp

/-- Eviction is one round after the other. -/
theorem evict_succ (excess : Nat) (es : List (K × Slot V)) :
    evict (excess + 1) es
      = match firstOut? es with
        | none => ([], es)
        | some (key, es') => (key :: (evict excess es').1, (evict excess es').2) := by
  fun_induction firstOut? es with
  | case1 => rfl
  | case2 e => simp [evict]
  | case3 key value rest hne => exact evict_result excess key value (by simpa using hne)
  | case4 e rest hne hmark ih =>
    obtain ⟨key, slot⟩ := e
    cases slot with
    | resolved value => exact absurd rfl (hmark key value)
    | inFlight =>
      rw [evict_mark, ih]
      cases firstOut? rest with
      | none => rfl
      | some out => simp only [Option.map_some, evict_mark]

/-- **The loop ends**, and what it evicts is what is evicted. -/
theorem evicts_evict (capacity : Nat) (es : List (K × Slot V)) :
    Evicts capacity es (evict (es.length - capacity) es).1
      (evict (es.length - capacity) es).2 := by
  induction hexcess : es.length - capacity generalizing es with
  | zero =>
    rw [evict]
    exact .enough (by omega)
  | succ excess ih =>
    rw [evict_succ]
    cases hout : firstOut? es with
    | none => exact .marked hout
    | some out =>
      have hlength := length_of_firstOut? hout
      exact .out (by omega) hout (ih out.2 (by omega))

/-- In front of a last entry that stays, results go from the front and marks stay. -/
theorem evict_append (excess : Nat) (front : List (K × Slot V)) (last : K × Slot V) :
    (evict excess (front ++ [last])).1 = ((resultsOf front).take excess).map Prod.fst
      ∧ resultsOf (evict excess (front ++ [last])).2
          = (resultsOf front).drop excess ++ resultsOf [last]
      ∧ marksOf (evict excess (front ++ [last])).2 = marksOf (front ++ [last]) := by
  induction front generalizing excess with
  | nil =>
    have hlast : evict excess [last] = ([], [last]) := by cases excess <;> simp [evict]
    simp [hlast]
  | cons e rest ih =>
    obtain ⟨key, slot⟩ := e
    rw [List.cons_append]
    cases slot with
    | inFlight =>
      obtain ⟨hgone, hresults, hmarks⟩ := ih excess
      rw [evict_mark]
      exact ⟨hgone, hresults, congrArg (key :: ·) hmarks⟩
    | resolved value =>
      cases excess with
      | zero => simp [evict, resultsOf_append]
      | succ excess =>
        obtain ⟨hgone, hresults, hmarks⟩ := ih excess
        rw [evict_result excess key value (by simp)]
        exact ⟨congrArg (key :: ·) hgone, hresults, hmarks⟩

end Lru

end Recurrence.Cache
