import Mathlib.Algebra.Order.Floor.Semifield
import Mathlib.Data.Rat.Floor
import Mathlib.Tactic.FieldSimp
import Mathlib.Tactic.LinearCombination
import Mathlib.Tactic.Positivity
import Recurrence.Proofs.Expansion.LongDivision

/-!
# Division is exact

The expansion of `n / d` writes down the digits of the quotient, all of them: the steps of the
division give the digits up to the end of the period, and from there on the remainders come round,
and the digits with them. Read back as a rational number it is `n / d`.

Of the two ways to write down a terminating expansion it is the one without nines, since what a
remainder lacks to the divisor grows tenfold with every nine.
-/

namespace Recurrence

open LongDivision

namespace Expansion

/-! ## What an expansion denotes -/

/-- The `k`-th digit behind the point: the digits repeat, and nothing is followed by zeros. -/
def digitAt (e : Expansion) (k : Nat) : Nat :=
  match e.preperiod[k]? with
  | some digit => digit.val
  | none =>
    match e.period[(k - e.preperiod.length) % e.period.length]? with
    | some digit => digit.val
    | none => 0

/-- The rational number an expansion denotes. -/
def exactValue (e : Expansion) : ℚ :=
  (if e.negative then -1 else 1) *
    (e.integerPart + Digits.value e.preperiod / 10 ^ e.preperiod.length
      + Digits.value e.period
        / (10 ^ e.preperiod.length * (10 ^ e.period.length - 1)))

end Expansion

namespace LongDivision

variable {divisor numerator start length : Nat}

/-! ## Where the digits repeat -/

/-- The remainder at `start` is the first one to come back, after `length` digits; if it is zero,
there is nothing to come. -/
structure Repeats (divisor numerator start length : Nat) : Prop where
  returns : remainderAt divisor numerator (start + length) = remainderAt divisor numerator start
  stops : length = 0 → remainderAt divisor numerator start = 0
  nonzero : ∀ i < start + length, remainderAt divisor numerator i ≠ 0
  distinct : ∀ i < start + length, ∀ j < start + length,
    remainderAt divisor numerator i = remainderAt divisor numerator j → i = j

theorem Ended.repeats {mode : Detector.Mode} {result : List Step × Ending}
    (h : Ended mode divisor numerator result) :
    (result.2 = .exact ∧ Repeats divisor numerator result.1.length 0)
      ∨ ∃ start length, result.1.length = start + length ∧ 0 < length
          ∧ result.2 = .recurred (mode.verdict start (start + length))
          ∧ Repeats divisor numerator start length := by
  rcases h.ending with ⟨hexact, hzero⟩ | ⟨start, hlt, hsame, hrecurred⟩
  · exact .inl ⟨hexact, rfl, fun _ => hzero, h.nonzero, h.distinct⟩
  · obtain ⟨length, hlength⟩ := Nat.exists_eq_add_of_lt hlt
    have hsplit : result.1.length = start + (length + 1) := by omega
    have hnonzero := h.nonzero
    have hdistinct := h.distinct
    rw [hsplit] at hsame hrecurred hnonzero hdistinct
    exact .inr ⟨start, length + 1, hsplit, by omega, hrecurred, hsame, by simp, hnonzero,
      hdistinct⟩

/-- The digits that a division writes down. -/
theorem Ended.digits {mode : Detector.Mode} {result : List Step × Ending}
    (h : Ended mode divisor numerator result) :
    result.1.map (·.digit) = digitsOf divisor numerator result.1.length := by
  conv_lhs => rw [h.steps]
  rw [List.map_map, digitsOf]
  rfl

/-- From `start` on the remainders come round. -/
theorem Repeats.remainderAt_mod (h : Repeats divisor numerator start length) (j : Nat) :
    remainderAt divisor numerator (start + j % length)
      = remainderAt divisor numerator (start + j) := by
  have hperiodic : Function.Periodic (fun j => remainderAt divisor numerator (start + j))
      length := by
    intro j
    show remainderAt divisor numerator (start + (j + length))
      = remainderAt divisor numerator (start + j)
    rw [show start + (j + length) = start + length + j by omega, ← remainderAt_remainderAt,
      h.returns, remainderAt_remainderAt]
  exact hperiodic.map_mod_nat j

/-- What is written down gives all digits. -/
theorem Repeats.digitAt (h : Repeats divisor numerator start length) (negative : Bool)
    (integerPart k : Nat) :
    Expansion.digitAt ⟨negative, integerPart, digitsOf divisor numerator start,
        digitsOf divisor (remainderAt divisor numerator start) length⟩ k
      = (stepAt divisor numerator k).digit.val := by
  unfold Expansion.digitAt
  simp only [digitsOf_length]
  rcases Nat.lt_or_ge k start with hlt | hge
  · have hdigit : (digitsOf divisor numerator start)[k]?
        = some (stepAt divisor numerator k).digit := by
      simp [digitsOf, hlt]
    rw [hdigit]
  have hnone : (digitsOf divisor numerator start)[k]? = none := by simp [digitsOf, hge]
  obtain ⟨j, rfl⟩ := Nat.exists_eq_add_of_le hge
  rw [hnone, Nat.add_sub_cancel_left]
  rcases Nat.eq_zero_or_pos length with rfl | hpos
  · -- nothing is left, and nothing comes of it
    have hzero : remainderAt divisor numerator (start + j) = 0 := by
      rw [← remainderAt_remainderAt, h.stops rfl, remainderAt, Nat.zero_mul, Nat.zero_mod]
    simp [digitsOf, stepAt, hzero, Step.next, Digit.ofNat]
  · have hin := Nat.mod_lt j hpos
    have hdigit : (digitsOf divisor (remainderAt divisor numerator start) length)[j % length]?
        = some (stepAt divisor numerator (start + j)).digit := by
      simp [digitsOf, hin, stepAt, remainderAt_remainderAt, h.remainderAt_mod]
    rw [hdigit]

/-- The preperiod and the period make up the fraction. -/
theorem Repeats.value (h : Repeats divisor numerator start length) (hlt : numerator < divisor) :
    (Digits.value (digitsOf divisor numerator start) / 10 ^ start
      + Digits.value (digitsOf divisor (remainderAt divisor numerator start) length)
        / (10 ^ start * (10 ^ length - 1)) : ℚ) = numerator / divisor := by
  have hd : 0 < divisor := by omega
  have hdivisor : (divisor : ℚ) ≠ 0 := Nat.cast_ne_zero.mpr hd.ne'
  have hfront := value_digitsOf hlt start
  have hperiod := value_digitsOf (remainderAt_lt hd numerator start) length
  rw [remainderAt_remainderAt, h.returns] at hperiod
  have hfrontQ : (divisor * Digits.value (digitsOf divisor numerator start)
      + remainderAt divisor numerator start : ℚ) = numerator * 10 ^ start := by
    exact_mod_cast hfront
  have hperiodQ : (divisor
        * Digits.value (digitsOf divisor (remainderAt divisor numerator start) length)
      + remainderAt divisor numerator start : ℚ)
      = remainderAt divisor numerator start * 10 ^ length := by
    exact_mod_cast hperiod
  rcases Nat.eq_zero_or_pos length with rfl | hpos
  · rw [h.stops rfl] at hfrontQ ⊢
    have hnone : Digits.value (digitsOf divisor 0 0) = 0 := rfl
    rw [hnone, Nat.cast_zero, zero_div, add_zero]
    rw [Nat.cast_zero, add_zero] at hfrontQ
    field_simp
    linear_combination hfrontQ
  · have hnines : (10 ^ length - 1 : ℚ) ≠ 0 := by
      have hpow : (1 : ℚ) < 10 ^ length := one_lt_pow₀ (by norm_num) hpos.ne'
      linarith
    field_simp
    linear_combination (10 ^ length - 1) * hfrontQ + hperiodQ

/-- **The digits do not end in nines.** -/
theorem not_eventually_nine (hd : 0 < divisor) :
    ¬ ∃ from_, ∀ k ≥ from_, (stepAt divisor numerator k).digit.val = 9 := by
  rintro ⟨k, hnines⟩
  -- what a remainder lacks to the divisor grows tenfold
  have hlacks (j : Nat) : 10 ^ j ≤ divisor - remainderAt divisor numerator (k + j) := by
    induction j with
    | zero =>
      have hlt := remainderAt_lt hd numerator k
      rw [Nat.pow_zero, Nat.add_zero]
      omega
    | succ j ih =>
      have hnine := hnines (k + j) (by omega)
      rw [stepAt_digit hd] at hnine
      have hmod := Nat.mod_add_div (remainderAt divisor numerator (k + j) * 10) divisor
      rw [hnine, ← remainderAt_succ] at hmod
      rw [Nat.pow_succ, ← Nat.add_assoc]
      omega
  have hpow : divisor < 10 ^ divisor := Nat.lt_pow_self (by omega)
  have := hlacks divisor
  omega

end LongDivision

namespace Expansion

/-- The division of two whole numbers, by what its remainders do. -/
theorem ofFraction_describe (n : Int) {d : Int} (hd : d ≠ 0) :
    ∃ start length, Repeats d.natAbs (n.natAbs % d.natAbs) start length
      ∧ ofFraction .describe n d = .ok ⟨isNegativeQuotient n d, n.natAbs / d.natAbs,
          digitsOf d.natAbs (n.natAbs % d.natAbs) start,
          digitsOf d.natAbs (remainderAt d.natAbs (n.natAbs % d.natAbs) start) length⟩ := by
  have hpos : 0 < d.natAbs := Int.natAbs_pos.mpr hd
  have hended := ofFraction_ended .describe (Nat.mod_lt n.natAbs hpos)
  rw [ofFraction, if_neg hd]
  generalize LongDivision.ofFraction .describe (n.natAbs % d.natAbs) d.natAbs = result at *
  obtain ⟨steps, ending⟩ := result
  have hdigits := hended.digits
  rcases hended.repeats with
    ⟨rfl, hrepeats⟩ | ⟨start, length, hsplit, hlength, rfl, hrepeats⟩
  · refine ⟨steps.length, 0, hrepeats, ?_⟩
    show Except.ok (ofDigits _ _ (steps.map (·.digit)) none) = _
    rw [hdigits]
    rfl
  · refine ⟨start, length, hrepeats, ?_⟩
    have hverdict : Detector.Mode.describe.verdict start (start + length)
        = .cycle start length := by
      simp [Detector.Mode.verdict]
    rw [hverdict]
    show Except.ok (ofDigits _ _ (steps.map (·.digit)) (some start)) = _
    rw [hdigits, hsplit, ofDigits, digitsOf_take (by omega), digitsOf_drop]

/-- A quotient has its sign. -/
theorem isNegativeQuotient_iff (n : Int) {d : Int} (hd : d ≠ 0) :
    isNegativeQuotient n d = true ↔ (n / d : ℚ) < 0 := by
  rw [div_neg_iff]
  norm_cast
  simp only [isNegativeQuotient, Bool.and_eq_true, bne_iff_ne, ne_eq, decide_eq_decide]
  omega

/-- A quotient is its sign times its magnitude. -/
theorem sign_mul_magnitude (n : Int) {d : Int} (hd : d ≠ 0) :
    (if isNegativeQuotient n d then -1 else 1) * (n.natAbs / d.natAbs : ℚ) = n / d := by
  have habs : (n.natAbs / d.natAbs : ℚ) = |(n / d : ℚ)| := by
    rw [abs_div, Nat.cast_natAbs, Nat.cast_natAbs, Int.cast_abs, Int.cast_abs]
  rw [habs]
  by_cases hneg : (n / d : ℚ) < 0
  · rw [if_pos ((isNegativeQuotient_iff n hd).mpr hneg), abs_of_neg hneg, neg_one_mul, neg_neg]
  · rw [if_neg (mt (isNegativeQuotient_iff n hd).mp hneg), abs_of_nonneg (not_lt.mp hneg), one_mul]

/-- **Division is exact.** -/
theorem ofFraction_exact (n d : Int) (hd : d ≠ 0) :
    ∃ e, ofFraction .describe n d = .ok e
      ∧ (e.negative = true ↔ (n / d : ℚ) < 0)
      ∧ e.integerPart = ⌊|(n : ℚ)| / |(d : ℚ)|⌋₊
      ∧ (∀ k, e.digitAt k = ⌊10 ^ (k + 1) * |(n : ℚ)| / |(d : ℚ)|⌋₊ % 10)
      ∧ e.exactValue = n / d
      ∧ ¬ ∃ from_, ∀ k ≥ from_, e.digitAt k = 9 := by
  have hpos : 0 < d.natAbs := Int.natAbs_pos.mpr hd
  have hlt := Nat.mod_lt n.natAbs hpos
  have habs (a : Int) : |(a : ℚ)| = (a.natAbs : ℚ) := by rw [Nat.cast_natAbs, Int.cast_abs]
  obtain ⟨start, length, hrepeats, he⟩ := ofFraction_describe n hd
  have hdigit := hrepeats.digitAt (isNegativeQuotient n d) (n.natAbs / d.natAbs)
  refine ⟨_, he, isNegativeQuotient_iff n hd, ?integer, ?digits, ?value, ?nines⟩
  case integer => rw [habs, habs, Nat.floor_div_eq_div]
  case digits =>
    intro k
    have hfloor : (10 : ℚ) ^ (k + 1) * |(n : ℚ)| / |(d : ℚ)|
        = ((n.natAbs * 10 ^ (k + 1) : Nat) : ℚ) / (d.natAbs : ℚ) := by
      rw [habs, habs]
      push_cast
      ring
    rw [hdigit, hfloor, Nat.floor_div_eq_div, ← stepAt_digit_eq hpos, stepAt,
      LongDivision.remainderAt_mod, ← stepAt]
  case value =>
    have hvalue := hrepeats.value hlt
    rw [← sign_mul_magnitude n hd]
    unfold exactValue
    simp only [digitsOf_length]
    rw [add_assoc, hvalue]
    have hsplit : (n.natAbs : ℚ) = d.natAbs * ((n.natAbs / d.natAbs : Nat) : ℚ)
        + ((n.natAbs % d.natAbs : Nat) : ℚ) := by
      exact_mod_cast (Nat.div_add_mod n.natAbs d.natAbs).symm
    have hne : (d.natAbs : ℚ) ≠ 0 := Nat.cast_ne_zero.mpr hpos.ne'
    congr 1
    field_simp
    linear_combination -hsplit
  case nines =>
    intro hnines
    simp only [hdigit] at hnines
    exact not_eventually_nine hpos hnines

/-- The expansion of `-22 / 7` is `-3.142857142857…` -/
theorem ofFraction_exact_sevenths :
    ∃ e, ofFraction .describe (-22) 7 = .ok e ∧ e.negative = true ∧ e.integerPart = 3
      ∧ e.digitAt 0 = 1 ∧ e.digitAt 1 = 4 ∧ e.digitAt 6 = 1 ∧ e.exactValue = -22 / 7 := by
  obtain ⟨e, he, hnegative, hinteger, hdigit, hvalue, -⟩ := ofFraction_exact (-22) 7 (by decide)
  refine ⟨e, he, hnegative.mpr (by norm_num), ?_, ?_, ?_, ?_, ?_⟩
  · rw [hinteger]
    norm_num
  · rw [hdigit]
    norm_num
  · rw [hdigit]
    norm_num
  · rw [hdigit]
    norm_num
  · rw [hvalue]
    norm_num

end Expansion

end Recurrence
