import Mathlib.Data.Finset.Card
import Mathlib.Data.Nat.Periodic
import Mathlib.Order.Interval.Finset.Nat
import Mathlib.Tactic.Linarith
import Mathlib.Tactic.Ring
import Recurrence.Expansion.Division

/-!
# How a long division goes

The remainder after `i` digits of `n / d` is `n * 10 ^ i % d`, so the remainders are a sequence that
is known in advance, and the loop walks along it until it meets a zero or a remainder it has seen.
The detector holds exactly the remainders behind the loop. They are different numbers between zero
and the divisor, so there are fewer of them than the divisor, and the loop comes to its end before
its fuel does.
-/

namespace Recurrence.LongDivision

/-! ## The remainders -/

/-- What is left after `i` digits. -/
def remainderAt (divisor numerator i : Nat) : Nat := numerator * 10 ^ i % divisor

/-- The step that follows. -/
def stepAt (divisor numerator i : Nat) : Step := .next divisor (remainderAt divisor numerator i)

/-- The first `k` fractional digits. -/
def digitsOf (divisor numerator k : Nat) : List Digit :=
  (List.range k).map fun i => (stepAt divisor numerator i).digit

variable {divisor numerator : Nat}

theorem remainderAt_zero (h : numerator < divisor) :
    remainderAt divisor numerator 0 = numerator := by
  rw [remainderAt, Nat.pow_zero, Nat.mul_one, Nat.mod_eq_of_lt h]

theorem remainderAt_lt (hd : 0 < divisor) (numerator i : Nat) :
    remainderAt divisor numerator i < divisor :=
  Nat.mod_lt _ hd

/-- The division goes on from a remainder as if it began there. -/
theorem remainderAt_remainderAt (i j : Nat) :
    remainderAt divisor (remainderAt divisor numerator i) j
      = remainderAt divisor numerator (i + j) := by
  rw [remainderAt, remainderAt, remainderAt, Nat.mod_mul_mod, Nat.mul_assoc, ← Nat.pow_add]

theorem remainderAt_mod (i : Nat) :
    remainderAt divisor (numerator % divisor) i = remainderAt divisor numerator i := by
  rw [remainderAt, Nat.mod_mul_mod, remainderAt]

theorem remainderAt_succ (i : Nat) :
    remainderAt divisor numerator (i + 1) = remainderAt divisor numerator i * 10 % divisor := by
  rw [remainderAt, remainderAt, Nat.mod_mul_mod, Nat.pow_succ, Nat.mul_assoc]

theorem stepAt_remainder (i : Nat) :
    (stepAt divisor numerator i).remainder = remainderAt divisor numerator (i + 1) :=
  (remainderAt_succ i).symm

theorem stepAt_remainderAt (i j : Nat) :
    stepAt divisor (remainderAt divisor numerator i) j = stepAt divisor numerator (i + j) := by
  rw [stepAt, remainderAt_remainderAt, stepAt]

/-- A zero brought down is worth one digit, so the quotient of a step is one. -/
theorem stepAt_digit (hd : 0 < divisor) (i : Nat) :
    (stepAt divisor numerator i).digit.val = remainderAt divisor numerator i * 10 / divisor := by
  have hlt := remainderAt_lt hd numerator i
  have hdigit : remainderAt divisor numerator i * 10 / divisor < 10 := by
    rw [Nat.div_lt_iff_lt_mul hd]
    omega
  exact Nat.mod_eq_of_lt hdigit

/-- The digits of a step are those of the quotient. -/
theorem stepAt_digit_eq (hd : 0 < divisor) (i : Nat) :
    (stepAt divisor numerator i).digit.val = numerator * 10 ^ (i + 1) / divisor % 10 := by
  have hsplit : numerator * 10 ^ (i + 1)
      = remainderAt divisor numerator i * 10
        + divisor * (10 * (numerator * 10 ^ i / divisor)) := by
    have hmod := Nat.mod_add_div (numerator * 10 ^ i) divisor
    rw [Nat.pow_succ, ← Nat.mul_assoc]
    conv_lhs => rw [← hmod]
    rw [remainderAt]
    ring
  have hdigit := (stepAt divisor numerator i).digit.isLt
  rw [hsplit, Nat.add_mul_div_left _ _ hd, ← stepAt_digit hd, Nat.add_mul_mod_self_left,
    Nat.mod_eq_of_lt hdigit]

theorem digitsOf_length (k : Nat) : (digitsOf divisor numerator k).length = k := by
  simp [digitsOf]

/-- The first digits and what they leave make up the numerator. -/
theorem value_digitsOf (h : numerator < divisor) (k : Nat) :
    divisor * Digits.value (digitsOf divisor numerator k) + remainderAt divisor numerator k
      = numerator * 10 ^ k := by
  have hd : 0 < divisor := by omega
  induction k with
  | zero => simp [digitsOf, Digits.value, remainderAt_zero h]
  | succ k ih =>
    have hdigits : digitsOf divisor numerator (k + 1)
        = digitsOf divisor numerator k ++ [(stepAt divisor numerator k).digit] := by
      simp [digitsOf, List.range_succ]
    have hstep := Nat.mod_add_div (remainderAt divisor numerator k * 10) divisor
    rw [hdigits, Digits.value_append_singleton, stepAt_digit hd, remainderAt_succ, Nat.pow_succ,
      ← Nat.mul_assoc, ← ih]
    linarith

theorem digitsOf_take {start k : Nat} (h : start ≤ k) :
    (digitsOf divisor numerator k).take start = digitsOf divisor numerator start := by
  rw [digitsOf, ← List.map_take, List.take_range, Nat.min_eq_left h, digitsOf]

theorem digitsOf_drop (start length : Nat) :
    (digitsOf divisor numerator (start + length)).drop start
      = digitsOf divisor (remainderAt divisor numerator start) length := by
  unfold digitsOf
  rw [List.range_add, List.map_append, List.drop_left' (by simp), List.map_map]
  refine List.map_congr_left fun i _ => ?_
  rw [Function.comp_apply, stepAt_remainderAt]

/-! ## The loop -/

/-- The loop has done `position` steps and has seen as many remainders. -/
structure Underway (mode : Detector.Mode) (divisor numerator : Nat) (seen : Detector Nat)
    (done : List Step) (position : Nat) : Prop where
  mode : seen.mode = mode
  seen : ∀ remainder i, seen.seen[remainder]? = some i ↔
    i < position ∧ remainderAt divisor numerator i = remainder
  done : done.reverse = (List.range position).map (stepAt divisor numerator)
  nonzero : ∀ i < position, remainderAt divisor numerator i ≠ 0

/-- The loop has come to its end at a zero, or at a remainder that was there at `start`. -/
structure Ended (mode : Detector.Mode) (divisor numerator : Nat)
    (result : List Step × Ending) : Prop where
  steps : result.1 = (List.range result.1.length).map (stepAt divisor numerator)
  nonzero : ∀ i < result.1.length, remainderAt divisor numerator i ≠ 0
  distinct : ∀ i < result.1.length, ∀ j < result.1.length,
    remainderAt divisor numerator i = remainderAt divisor numerator j → i = j
  ending : (result.2 = .exact ∧ remainderAt divisor numerator result.1.length = 0)
    ∨ ∃ start < result.1.length,
        remainderAt divisor numerator result.1.length = remainderAt divisor numerator start
        ∧ result.2 = .recurred (mode.verdict start result.1.length)

variable {mode : Detector.Mode} {seen : Detector Nat} {done : List Step} {position : Nat}

theorem underway_start (mode : Detector.Mode) (divisor numerator : Nat) :
    Underway mode divisor numerator (.new mode) [] 0 where
  mode := rfl
  seen remainder i := by simp [Detector.new]
  done := rfl
  nonzero i hi := absurd hi (by omega)

theorem Underway.distinct (h : Underway mode divisor numerator seen done position)
    {i j : Nat} (hi : i < position) (hj : j < position)
    (heq : remainderAt divisor numerator i = remainderAt divisor numerator j) : i = j := by
  have hseen := (h.seen (remainderAt divisor numerator j) i).mpr ⟨hi, heq⟩
  rw [(h.seen _ j).mpr ⟨hj, rfl⟩] at hseen
  exact (Option.some.inj hseen).symm

/-- There are fewer remainders than the divisor, since none of them is zero. -/
theorem Underway.position_lt (h : Underway mode divisor numerator seen done position)
    (hd : 0 < divisor) : position < divisor := by
  have hmaps : Set.MapsTo (remainderAt divisor numerator) (Finset.range position)
      (Finset.Ico 1 divisor) := by
    intro i hi
    have hne := h.nonzero i (Finset.mem_range.mp hi)
    have hlt := remainderAt_lt hd numerator i
    exact Finset.mem_coe.mpr (Finset.mem_Ico.mpr ⟨by omega, hlt⟩)
  have hinj : Set.InjOn (remainderAt divisor numerator) (Finset.range position) :=
    fun i hi j hj heq => h.distinct (Finset.mem_range.mp hi) (Finset.mem_range.mp hj) heq
  have hcard := Finset.card_le_card_of_injOn _ hmaps hinj
  rw [Finset.card_range, Nat.card_Ico] at hcard
  omega

theorem Underway.steps_length (h : Underway mode divisor numerator seen done position) :
    done.reverse.length = position := by
  rw [h.done, List.length_map, List.length_range]

/-- The end of the loop, once the reason for it is known. -/
theorem Underway.ended (h : Underway mode divisor numerator seen done position)
    {ending : Ending}
    (hending : (ending = .exact ∧ remainderAt divisor numerator position = 0)
      ∨ ∃ start < position,
          remainderAt divisor numerator position = remainderAt divisor numerator start
          ∧ ending = .recurred (mode.verdict start position)) :
    Ended mode divisor numerator (done.reverse, ending) := by
  have hlength : (done.reverse, ending).1.length = position := h.steps_length
  constructor
  case steps => rw [hlength]; exact h.done
  case nonzero => rw [hlength]; exact h.nonzero
  case distinct => rw [hlength]; exact fun i hi j hj => h.distinct hi hj
  case ending => rw [hlength]; exact hending

/-- A remainder that is new is noted, and the next digit is found. -/
theorem Underway.step (h : Underway mode divisor numerator seen done position)
    (hnew : seen.seen[remainderAt divisor numerator position]? = none)
    (hne : remainderAt divisor numerator position ≠ 0) :
    Underway mode divisor numerator
      { seen with seen := seen.seen.insert (remainderAt divisor numerator position) position }
      (stepAt divisor numerator position :: done) (position + 1) where
  mode := h.mode
  seen remainder i := by
    show (seen.seen.insert _ position)[remainder]? = some i ↔ _
    rw [Std.HashMap.getElem?_insert]
    by_cases heq : remainderAt divisor numerator position = remainder
    -- the remainder just noted: no position before this one has it
    · subst heq
      have hold : ∀ i < position, remainderAt divisor numerator i
          ≠ remainderAt divisor numerator position := by
        intro i hi hsame
        rw [(h.seen _ i).mpr ⟨hi, hsame⟩] at hnew
        exact absurd hnew (by simp)
      rw [if_pos (by simp), Option.some.injEq]
      constructor
      · rintro rfl
        exact ⟨by omega, rfl⟩
      · rintro ⟨hi, hsame⟩
        by_contra hother
        exact hold i (by omega) hsame
    · rw [if_neg (by simpa using heq), h.seen]
      constructor
      · rintro ⟨hi, hsame⟩
        exact ⟨by omega, hsame⟩
      · rintro ⟨hi, hsame⟩
        refine ⟨?_, hsame⟩
        by_contra hlast
        exact heq (by rw [← hsame, show i = position by omega])
  done := by
    rw [List.reverse_cons, h.done, List.range_succ, List.map_append, List.map_singleton]
  nonzero i hi := by
    rcases Nat.lt_or_ge i position with hlt | hge
    · exact h.nonzero i hlt
    · rwa [show i = position by omega]

/-- **The loop comes to its end**, at the latest when all remainders have been seen. -/
theorem run_ended (hd : 0 < divisor) (fuel : Nat)
    (h : Underway mode divisor numerator seen done position)
    (hfuel : fuel + position = divisor) :
    Ended mode divisor numerator
      (run divisor fuel seen done position (remainderAt divisor numerator position)) := by
  induction fuel generalizing seen done position with
  | zero =>
    -- as many remainders as the divisor is would be too many
    have hlt := h.position_lt hd
    omega
  | succ fuel ih =>
    rw [run]
    by_cases hzero : remainderAt divisor numerator position = 0
    · rw [if_pos hzero]
      exact h.ended (.inl ⟨rfl, hzero⟩)
    rw [if_neg hzero, Detector.observe]
    cases hseen : seen.seen[remainderAt divisor numerator position]? with
    | none =>
      have hnext := ih (h.step hseen hzero) (by omega)
      rw [← stepAt_remainder] at hnext
      exact hnext
    | some start =>
      obtain ⟨hlt, hsame⟩ := (h.seen _ start).mp hseen
      rw [h.mode]
      exact h.ended (.inr ⟨start, hlt, hsame.symm, rfl⟩)

theorem ofFraction_ended (mode : Detector.Mode) (h : numerator < divisor) :
    Ended mode divisor numerator (ofFraction mode numerator divisor) := by
  have hrun := run_ended (by omega) divisor (underway_start mode divisor numerator) (by omega)
  rw [remainderAt_zero h] at hrun
  exact hrun

end Recurrence.LongDivision
