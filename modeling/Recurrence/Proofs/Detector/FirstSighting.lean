import Mathlib.Data.List.Basic
import Recurrence.Detector

/-!
# A detector points to first sightings

A detector may be shown anything: keys in any order, positions that jump back and forth, and more
after it has reported a cycle or refused a key. Whatever has happened, it remembers where each key
was seen first (`Remembers`), since only a key that is new changes it. So what it answers can be read
off the sightings before, without the detector, and so can the number of keys it holds.

Keys are compared as the detector compares them, by an equivalence that the hash agrees with. Two
keys may be the same for it and yet be told apart otherwise. A position may be any number; no answer
holds a greater one, so positions that fit a word have answers that fit it as well.
-/

namespace Recurrence.Detector

/-- A key that is shown to a detector, and where. -/
structure Sighting (K : Type) where
  key : K
  position : Nat
deriving DecidableEq, Repr

variable {K : Type} [BEq K]

/-! ## What comes first -/

/-- Of all sightings of a key, this one came first. -/
def IsFirst (first : Sighting K) (key : K) (history : List (Sighting K)) : Prop :=
  ∃ before later, history = before ++ first :: later ∧ (first.key == key) = true
    ∧ ∀ s ∈ before, (s.key == key) = false

/-- The first sighting of a key. -/
def first? (key : K) (history : List (Sighting K)) : Option (Sighting K) :=
  history.find? (·.key == key)

theorem first?_eq_some_iff {first : Sighting K} {key : K} {history : List (Sighting K)} :
    first? key history = some first ↔ IsFirst first key history := by
  rw [first?, List.find?_eq_some_iff_append]
  constructor
  · intro h
    obtain ⟨hkey, before, later, heq, hbefore⟩ := h
    exact ⟨before, later, heq, hkey, fun s hs => by simpa using hbefore s hs⟩
  · intro h
    obtain ⟨before, later, heq, hkey, hbefore⟩ := h
    exact ⟨hkey, before, later, heq, fun s hs => by simpa using hbefore s hs⟩

theorem first?_eq_none_iff {key : K} {history : List (Sighting K)} :
    first? key history = none ↔ ∀ s ∈ history, (s.key == key) = false := by
  simp only [first?, List.find?_eq_none, Bool.not_eq_true]

/-- A sighting at the end comes first only if the key has not been seen. -/
theorem first?_concat (key : K) (history : List (Sighting K)) (s : Sighting K) :
    first? key (history ++ [s])
      = (first? key history).or (if s.key == key then some s else none) := by
  rw [first?, List.find?_append, List.find?_singleton, first?]

/-- Equal keys have the same first sighting. -/
theorem first?_congr [EquivBEq K] {key key' : K} (h : (key == key') = true)
    (history : List (Sighting K)) : first? key history = first? key' history := by
  have hsame : ∀ s : Sighting K, (s.key == key) = (s.key == key') := fun s => BEq.congr_right h
  simp only [first?, hsame]

/-- How many different keys were seen. -/
def keyCount (history : List (Sighting K)) : Nat := (history.map (·.key)).eraseDups.length

/-- Leaving out one key leaves the others in. -/
theorem any_filter_other [EquivBEq K] {other key : K} (h : (key == other) = false)
    (keys : List K) : (keys.filter fun k => !k == other).any (· == key) = keys.any (· == key) := by
  rw [List.any_filter]
  congr 1
  funext k
  cases hkey : k == key with
  | false => rw [Bool.and_false]
  | true =>
    have hother : (k == other) = false := by rw [BEq.congr_left hkey, h]
    rw [hother]
    rfl

/-- A key at the end is erased if it is there already. -/
theorem eraseDups_concat [EquivBEq K] (keys : List K) (key : K) :
    (keys ++ [key]).eraseDups
      = if keys.any (· == key) then keys.eraseDups else keys.eraseDups ++ [key] := by
  match keys with
  | [] => simp [List.eraseDups_cons]
  | k :: keys =>
    have hlength := List.length_filter_le (fun b => !b == k) keys
    rw [List.cons_append, List.eraseDups_cons, List.filter_append, List.eraseDups_cons,
      List.any_cons]
    cases hkey : key == k with
    | true =>
      rw [BEq.symm hkey]
      simp [hkey]
    | false =>
      have hfirst : (k == key) = false := by rw [BEq.comm, hkey]
      have hlast : [key].filter (fun b => !b == k) = [key] := by simp [hkey]
      -- the last key is not erased with the duplicates of the first, so the others decide
      rw [hlast, hfirst, Bool.false_or, eraseDups_concat, any_filter_other hkey]
      split <;> rfl
termination_by keys.length

theorem keyCount_concat [EquivBEq K] (history : List (Sighting K)) (s : Sighting K) :
    keyCount (history ++ [s])
      = if (first? s.key history).isSome then keyCount history else keyCount history + 1 := by
  have hany : (history.map (·.key)).any (· == s.key) = (first? s.key history).isSome := by
    rw [first?, List.any_map, Bool.eq_iff_iff, List.any_eq_true, List.find?_isSome]
    rfl
  rw [keyCount, List.map_append, List.map_singleton, eraseDups_concat, hany]
  split
  · rfl
  · rw [List.length_append, List.length_singleton, keyCount]

/-! ## What a detector remembers -/

variable [Hashable K]

/-- What a sequence of sightings leaves, whatever they were answered. -/
def after (d : Detector K) : List (Sighting K) → Detector K
  | [] => d
  | s :: rest => (d.observe s.key s.position).1.after rest

/-- The answers to a sequence of sightings, one for each. -/
def answers (d : Detector K) : List (Sighting K) → List (Option Verdict)
  | [] => []
  | s :: rest => (d.observe s.key s.position).2 :: (d.observe s.key s.position).1.answers rest

theorem after_append (d : Detector K) (earlier later : List (Sighting K)) :
    d.after (earlier ++ later) = (d.after earlier).after later := by
  induction earlier generalizing d with
  | nil => rfl
  | cons s earlier ih => exact ih _

theorem length_answers (d : Detector K) (sequence : List (Sighting K)) :
    (d.answers sequence).length = sequence.length := by
  induction sequence generalizing d with
  | nil => rfl
  | cons s rest ih => rw [answers, List.length_cons, List.length_cons, ih]

theorem answers_append (d : Detector K) (earlier later : List (Sighting K)) :
    d.answers (earlier ++ later) = d.answers earlier ++ (d.after earlier).answers later := by
  induction earlier generalizing d with
  | nil => rfl
  | cons s earlier ih => exact congrArg (_ :: ·) (ih _)

/-- The answer to a sighting is what the detector says that those before it have left. -/
theorem getElem?_answers (d : Detector K) (earlier later : List (Sighting K)) (s : Sighting K) :
    (d.answers (earlier ++ s :: later))[earlier.length]?
      = some ((d.after earlier).observe s.key s.position).2 := by
  rw [answers_append, ← length_answers d earlier, List.getElem?_append_right (Nat.le_refl _),
    Nat.sub_self]
  rfl

theorem mem_answers {d : Detector K} {sequence : List (Sighting K)} {answer : Option Verdict}
    (h : answer ∈ d.answers sequence) :
    ∃ earlier s later, sequence = earlier ++ s :: later
      ∧ answer = ((d.after earlier).observe s.key s.position).2 := by
  induction sequence generalizing d with
  | nil => cases h
  | cons s rest ih =>
    rcases List.mem_cons.mp h with rfl | hrest
    · exact ⟨[], s, rest, rfl, rfl⟩
    · obtain ⟨earlier, t, later, rfl, hanswer⟩ := ih hrest
      exact ⟨s :: earlier, t, later, rfl, hanswer⟩

/-- The detector holds the keys of a history, each at the position where it was seen first. -/
structure Remembers (d : Detector K) (mode : Mode) (history : List (Sighting K)) : Prop where
  mode : d.mode = mode
  seen : ∀ key : K, d.seen[key]? = (first? key history).map (·.position)
  size : d.size = keyCount history

variable {d : Detector K} {mode : Mode} {history : List (Sighting K)}

theorem Remembers.answer (h : d.Remembers mode history) (s : Sighting K) :
    (d.observe s.key s.position).2
      = (first? s.key history).map fun first => mode.verdict first.position s.position := by
  rw [observe, h.seen, h.mode]
  cases first? s.key history <;> rfl

/-- A key that was seen before leaves the detector as it is. -/
theorem Remembers.unchanged (h : d.Remembers mode history) (s : Sighting K) {first : Sighting K}
    (hfirst : first? s.key history = some first) : (d.observe s.key s.position).1 = d := by
  rw [observe, h.seen, hfirst]
  rfl

variable [EquivBEq K] [LawfulHashable K]

theorem remembers_new (mode : Mode) : (new mode : Detector K).Remembers mode [] where
  mode := rfl
  seen key := by simp [new, first?]
  size := by simp [new, size, keyCount]

/-- **A sighting adds to what is remembered and replaces nothing.** -/
theorem Remembers.observe (h : d.Remembers mode history) (s : Sighting K) :
    (d.observe s.key s.position).1.Remembers mode (history ++ [s]) := by
  cases hfirst : first? s.key history with
  | some first =>
    rw [h.unchanged s hfirst]
    constructor
    case mode => exact h.mode
    case seen =>
      intro key
      rw [h.seen, first?_concat]
      by_cases hkey : (s.key == key) = true
      · rw [← first?_congr hkey, hfirst, Option.some_or]
      · rw [if_neg hkey, Option.or_none]
    case size => rw [h.size, keyCount_concat, hfirst, Option.isSome_some, if_pos rfl]
  | none =>
    have hnew : d.seen[s.key]? = none := by rw [h.seen, hfirst, Option.map_none]
    rw [Detector.observe, hnew]
    constructor
    case mode => exact h.mode
    case seen =>
      intro key
      show (d.seen.insert s.key s.position)[key]? = _
      rw [Std.HashMap.getElem?_insert, first?_concat]
      by_cases hkey : (s.key == key) = true
      · rw [if_pos hkey, if_pos hkey, ← first?_congr hkey, hfirst, Option.none_or, Option.map_some]
      · rw [if_neg hkey, if_neg hkey, Option.or_none, h.seen]
    case size =>
      have habsent : s.key ∉ d.seen := by
        rw [Std.HashMap.mem_iff_isSome_getElem?, hnew]
        exact Bool.false_ne_true
      have hsize : d.seen.size = keyCount history := h.size
      show (d.seen.insert s.key s.position).size = _
      rw [Std.HashMap.size_insert, if_neg habsent, keyCount_concat, hfirst, Option.isSome_none,
        if_neg Bool.false_ne_true, hsize]

theorem Remembers.after (h : d.Remembers mode history) (sequence : List (Sighting K)) :
    (d.after sequence).Remembers mode (history ++ sequence) := by
  induction sequence generalizing d history with
  | nil => rwa [List.append_nil]
  | cons s rest ih =>
    rw [List.append_cons]
    exact ih (h.observe s)

theorem remembers_after (mode : Mode) (sequence : List (Sighting K)) :
    ((new mode).after sequence).Remembers mode sequence :=
  (remembers_new mode).after sequence

/-! ## What a detector answers -/

/-- A length is only taken of a cycle, and cannot be taken if the cycle runs backwards. -/
theorem overflow?_verdict {mode : Mode} {start position : Nat} {operation : Overflow} :
    (mode.verdict start position).overflow? = some operation
      ↔ operation = .subtract ∧ mode = .describe ∧ position < start := by
  unfold Mode.verdict
  cases mode with
  | fail => simp [Verdict.overflow?]
  | describe =>
    by_cases hle : start ≤ position
    · simp [Verdict.overflow?, hle]
    · simp [Verdict.overflow?, hle, Nat.lt_of_not_ge hle, eq_comm]

omit [EquivBEq K] [LawfulHashable K] in
theorem Remembers.overflow?_answer (h : d.Remembers mode history) (s : Sighting K)
    {operation : Overflow} :
    (d.observe s.key s.position).2.bind Verdict.overflow? = some operation
      ↔ operation = .subtract ∧ mode = .describe
        ∧ ∃ first, IsFirst first s.key history ∧ s.position < first.position := by
  simp only [h.answer, Option.bind_map, Option.bind_eq_some_iff, Function.comp_apply,
    overflow?_verdict, first?_eq_some_iff]
  constructor
  · intro h
    obtain ⟨first, hfirst, hoperation, hmode, hlt⟩ := h
    exact ⟨hoperation, hmode, first, hfirst, hlt⟩
  · intro h
    obtain ⟨hoperation, hmode, first, hfirst, hlt⟩ := h
    exact ⟨first, hfirst, hoperation, hmode, hlt⟩

/-- Positions that do not decrease leave no cycle that runs backwards. -/
theorem overflow?_eq_none_of_pairwise {sequence : List (Sighting K)}
    (h : sequence.Pairwise fun s t => s.position ≤ t.position) {answer : Option Verdict}
    (hanswer : answer ∈ (new mode).answers sequence) : answer.bind Verdict.overflow? = none := by
  obtain ⟨earlier, s, later, rfl, rfl⟩ := mem_answers hanswer
  rw [Option.eq_none_iff_forall_ne_some]
  intro operation hoverflow
  obtain ⟨-, -, first, hfirst, hlt⟩ :=
    ((remembers_after mode earlier).overflow?_answer s).mp hoverflow
  obtain ⟨before, between, rfl, -, -⟩ := hfirst
  have hle : first.position ≤ s.position :=
    (List.pairwise_append.mp h).2.2 first (by simp) s (by simp)
  omega

/--
**A detector remembers first sightings only**, whatever it is shown and whatever it has answered.
A sighting has no verdict exactly if its key was not seen before. Otherwise the detector stays as it
is, and the verdict points to the first sighting of the key: a refusal names both positions, and a
cycle is as long as they lie apart. The length cannot be taken exactly if the cycle runs backwards,
so never if the positions do not decrease. The detector always holds as many keys as it has been
shown different ones.
-/
theorem answers_first_sightings (mode : Mode) (sequence : List (Sighting K)) :
    (∀ earlier s later, sequence = earlier ++ s :: later →
      ∃ answer, ((new mode).answers sequence)[earlier.length]? = some answer
        ∧ (answer = none ↔ ∀ e ∈ earlier, (e.key == s.key) = false)
        ∧ (answer ≠ none → ∃ first, IsFirst first s.key earlier
            ∧ (new mode).after (earlier ++ [s]) = (new mode).after earlier
            ∧ (mode = .fail → answer = some (.refused first.position s.position))
            ∧ (mode = .describe → first.position ≤ s.position →
                answer = some (.cycle first.position (s.position - first.position)))
            ∧ (mode = .describe → s.position < first.position →
                answer = some (.backwards first.position s.position)))
        ∧ ∀ operation, answer.bind Verdict.overflow? = some operation
            ↔ operation = .subtract ∧ mode = .describe
              ∧ ∃ first, IsFirst first s.key earlier ∧ s.position < first.position)
      ∧ ((new mode).after sequence).size = keyCount sequence
      ∧ (sequence.Pairwise (fun s t => s.position ≤ t.position) →
          ∀ answer ∈ (new mode).answers sequence, answer.bind Verdict.overflow? = none) := by
  refine ⟨?each, (remembers_after mode sequence).size,
    fun h answer hanswer => overflow?_eq_none_of_pairwise h hanswer⟩
  case each =>
    intro earlier s later hsequence
    have hremembers := remembers_after mode earlier
    have hanswer := hremembers.answer s
    refine ⟨_, hsequence ▸ getElem?_answers (new mode) earlier later s, ?none, ?some,
      fun operation => hremembers.overflow?_answer s⟩
    case none => rw [hanswer, Option.map_eq_none_iff, first?_eq_none_iff]
    case some =>
      intro hseen
      rw [hanswer, Ne, Option.map_eq_none_iff, ← Ne, Option.ne_none_iff_exists'] at hseen
      obtain ⟨first, hfirst⟩ := hseen
      refine ⟨first, first?_eq_some_iff.mp hfirst, ?_, ?_, ?_, ?_⟩
      · rw [after_append]
        exact hremembers.unchanged s hfirst
      · intro hfail
        rw [hanswer, hfirst, hfail]
        rfl
      · intro hdescribe hle
        rw [hanswer, hfirst, hdescribe, Option.map_some, Mode.verdict, if_pos hle]
      · intro hdescribe hlt
        rw [hanswer, hfirst, hdescribe, Option.map_some, Mode.verdict,
          if_neg (Nat.not_le.mpr hlt)]

/-- Four comes back twice. -/
def returning : List (Sighting Nat) := [⟨4, 1⟩, ⟨6, 2⟩, ⟨4, 3⟩, ⟨4, 7⟩]

/-- The second time, too, the cycle of four begins at its first position, and two keys are held. Where
four comes back further to the front, the cycle has no length. -/
theorem answers_first_sightings_returning :
    EquivBEq Nat ∧ LawfulHashable Nat ∧ returning.Pairwise (fun s t => s.position ≤ t.position)
      ∧ (∀ answer ∈ (new .describe).answers returning, answer.bind Verdict.overflow? = none)
      ∧ ((new .describe).answers returning)[3]? = some (some (.cycle 1 6))
      ∧ ((new .describe).after returning).size = 2
      ∧ ∃ answer, ((new .describe).answers [(⟨4, 3⟩ : Sighting Nat), ⟨4, 1⟩])[1]? = some answer
          ∧ answer.bind Verdict.overflow? = some .subtract := by
  have hsorted : returning.Pairwise (fun s t => s.position ≤ t.position) := by decide
  obtain ⟨heach, hsize, hnone⟩ := answers_first_sightings .describe returning
  obtain ⟨answer, hanswer, hnew, hseen, -⟩ := heach [⟨4, 1⟩, ⟨6, 2⟩, ⟨4, 3⟩] ⟨4, 7⟩ [] rfl
  obtain ⟨first, hfirst, -, -, hcycle, -⟩ := hseen fun h => absurd (hnew.mp h) (by decide)
  obtain rfl : ⟨4, 1⟩ = first := Option.some.inj (first?_eq_some_iff.mpr hfirst)
  obtain ⟨hback, -, -⟩ := answers_first_sightings .describe [(⟨4, 3⟩ : Sighting Nat), ⟨4, 1⟩]
  obtain ⟨verdict, hverdict, -, -, hoverflow⟩ := hback [⟨4, 3⟩] ⟨4, 1⟩ [] rfl
  refine ⟨inferInstance, inferInstance, hsorted, hnone hsorted, ?cycle, hsize.trans (by decide),
    verdict, hverdict, ?backwards⟩
  case cycle => exact hanswer.trans (congrArg some (hcycle rfl (by decide)))
  case backwards =>
    refine (hoverflow .subtract).mpr ⟨rfl, rfl, ⟨4, 3⟩, ?_, by decide⟩
    exact first?_eq_some_iff.mp rfl

end Recurrence.Detector
