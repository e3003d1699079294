import Recurrence.Proofs.Expansion.Invariance
import Recurrence.Proofs.Expansion.Rules

/-!
# Which expansions are found by division

The expansions that division finds are those that are written by the rules. For the one half, the
digits that a division finds keep to the rules. For the other half, take an expansion and divide its
numerator by its denominator. Unless the period is all nines, the digits of this division are those
of the expansion, whether it keeps to the rules or not. If it does then the division finds it, and
so does the division of any other fraction of the same value.
-/

namespace Recurrence

namespace Expansion

open LongDivision

/-! ## An expansion and the division of its numerator -/

/-- An expansion is written by the rules: so are its digits, and zero has no sign. -/
structure Canonical (e : Expansion) : Prop where
  signed : e.negative = true → ¬ (e.integerPart = 0 ∧ ∀ digit ∈ e.digits, digit = 0)
  digits : Digits.Canonical e.preperiod e.period

/-- Zero is written in zeros. -/
theorem numerator_eq_zero_iff (e : Expansion) :
    e.numerator = 0 ↔ e.integerPart = 0 ∧ ∀ digit ∈ e.digits, digit = 0 := by
  have hdenominator := e.denominator_pos.ne'
  have hfactor := e.periodFactor_pos.ne'
  rw [numerator, Nat.add_eq_zero_iff, Nat.add_eq_zero_iff, Nat.mul_eq_zero, Nat.mul_eq_zero,
    Digits.value_eq_zero_iff, Digits.value_eq_zero_iff, digits, List.forall_mem_append]
  tauto

instance : DecidablePred Canonical := fun e =>
  decidable_of_iff
    ((e.negative = true → e.numerator ≠ 0) ∧ Digits.Canonical e.preperiod e.period) (by
      rw [ne_eq, numerator_eq_zero_iff]
      exact ⟨fun h => ⟨h.1, h.2⟩, fun h => ⟨h.signed, h.digits⟩⟩)

/-- A period that is not all nines is less than its factor. -/
theorem value_period_lt {e : Expansion} (h : e.Canonical) :
    Digits.value e.period < e.periodFactor := by
  have hlt := Digits.value_lt e.period
  unfold periodFactor
  split
  · rename_i hperiod
    rw [hperiod]
    exact Nat.one_pos
  · rename_i hperiod
    have hne := mt Digits.value_eq_nines_iff.mp (h.digits.notNines hperiod)
    omega

/-- A period moved in front of the point is a period and as many of its factor. -/
theorem value_period_mul_pow (e : Expansion) : Digits.value e.period * 10 ^ e.period.length
    = Digits.value e.period + Digits.value e.period * e.periodFactor := by
  unfold periodFactor
  split
  · rename_i hperiod
    rw [hperiod]
    rfl
  · have hone : 1 ≤ 10 ^ e.period.length := Nat.one_le_pow _ _ (by decide)
    rw [Nat.mul_sub, Nat.mul_one, Nat.add_sub_cancel' (Nat.le_mul_of_pos_right _ hone)]

section Parts

variable {e : Expansion} (h : Digits.value e.period < e.periodFactor)

include h

theorem lead_lt_denominator :
    Digits.value e.preperiod * e.periodFactor + Digits.value e.period < e.denominator := by
  have hlead := Digits.value_lt e.preperiod
  calc Digits.value e.preperiod * e.periodFactor + Digits.value e.period
      < (Digits.value e.preperiod + 1) * e.periodFactor := by rw [Nat.succ_mul]; omega
    _ ≤ e.denominator := Nat.mul_le_mul_right _ hlead

theorem numerator_div : e.numerator / e.denominator = e.integerPart := by
  rw [numerator, Nat.add_assoc, Nat.add_comm, Nat.add_mul_div_right _ _ e.denominator_pos,
    Nat.div_eq_of_lt (lead_lt_denominator h), Nat.zero_add]

theorem numerator_mod : e.numerator % e.denominator
    = Digits.value e.preperiod * e.periodFactor + Digits.value e.period := by
  rw [numerator, Nat.add_assoc, Nat.add_comm, Nat.add_mul_mod_self_right,
    Nat.mod_eq_of_lt (lead_lt_denominator h)]

/-- Behind the preperiod the period is what remains. -/
theorem remainderAt_preperiod :
    remainderAt e.denominator (e.numerator % e.denominator) e.preperiod.length
      = 10 ^ e.preperiod.length * Digits.value e.period := by
  rw [numerator_mod h, remainderAt, Nat.mul_comm, denominator, Nat.mul_mod_mul_left, Nat.add_comm,
    Nat.add_mul_mod_self_right, Nat.mod_eq_of_lt h]

theorem remainderAt_period :
    remainderAt e.denominator (10 ^ e.preperiod.length * Digits.value e.period) e.period.length
      = 10 ^ e.preperiod.length * Digits.value e.period := by
  rw [remainderAt, denominator, Nat.mul_assoc, value_period_mul_pow, Nat.mul_mod_mul_left,
    Nat.add_mul_mod_self_right, Nat.mod_eq_of_lt h]

/-- The division writes down the digits of the expansion. -/
theorem digitsOf_preperiod :
    digitsOf e.denominator (e.numerator % e.denominator) e.preperiod.length = e.preperiod := by
  have hvalue := value_digitsOf (Nat.mod_lt e.numerator e.denominator_pos) e.preperiod.length
  refine Digits.eq_of_value_eq (digitsOf_length _) ?_
  apply Nat.eq_of_mul_eq_mul_left e.denominator_pos
  apply Nat.add_right_cancel
  calc _ = e.numerator % e.denominator * 10 ^ e.preperiod.length := hvalue
    _ = e.denominator * Digits.value e.preperiod
        + 10 ^ e.preperiod.length * Digits.value e.period := by
      rw [numerator_mod h, denominator]; ring
    _ = _ := by rw [remainderAt_preperiod h]

theorem digitsOf_period :
    digitsOf e.denominator (10 ^ e.preperiod.length * Digits.value e.period) e.period.length
      = e.period := by
  have hx : 10 ^ e.preperiod.length * Digits.value e.period < e.denominator :=
    Nat.mul_lt_mul_of_pos_left h (Nat.pow_pos (by decide))
  have hvalue := value_digitsOf hx e.period.length
  refine Digits.eq_of_value_eq (digitsOf_length _) ?_
  apply Nat.eq_of_mul_eq_mul_left e.denominator_pos
  apply Nat.add_right_cancel
  calc _ = 10 ^ e.preperiod.length * (Digits.value e.period * 10 ^ e.period.length) := by
        rw [hvalue, Nat.mul_assoc]
    _ = e.denominator * Digits.value e.period
        + 10 ^ e.preperiod.length * Digits.value e.period := by
      rw [value_period_mul_pow, denominator]; ring
    _ = _ := by rw [remainderAt_period h]

end Parts

/-! ## The expansions that division finds -/

/-- What is written by the rules is found by dividing its own numerator by its own denominator. -/
theorem Canonical.repeats {e : Expansion} (h : e.Canonical) :
    Repeats e.denominator (e.numerator % e.denominator) e.preperiod.length e.period.length := by
  have hlt := value_period_lt h
  refine repeats_of_canonical e.denominator_pos ?returns ?stops ?rules
  case returns =>
    rw [← remainderAt_remainderAt, remainderAt_preperiod hlt, remainderAt_period hlt]
  case stops =>
    intro hlength
    have hvalue := Digits.value_lt e.period
    rw [hlength, Nat.pow_zero, Nat.lt_one_iff] at hvalue
    rw [remainderAt_preperiod hlt, hvalue, Nat.mul_zero]
  case rules =>
    rw [remainderAt_preperiod hlt, digitsOf_preperiod hlt, digitsOf_period hlt]
    exact h.digits

/-- The numerator with the sign. -/
def signedNumerator (e : Expansion) : Int := if e.negative then -e.numerator else e.numerator

theorem natAbs_signedNumerator (e : Expansion) : e.signedNumerator.natAbs = e.numerator := by
  unfold signedNumerator
  split <;> simp

theorem exactValue_eq_div (e : Expansion) :
    e.exactValue = e.signedNumerator / (e.denominator : Int) := by
  rw [exactValue_eq, signedNumerator]
  split <;> push_cast <;> ring

/-- Only zero loses its sign. -/
theorem Canonical.sign_eq {e : Expansion} (h : e.Canonical) :
    isNegativeQuotient e.signedNumerator e.denominator = e.negative := by
  have hpos := e.denominator_pos
  have hsign : isNegativeQuotient e.signedNumerator e.denominator = true
      ↔ e.signedNumerator < 0 := by
    simp only [isNegativeQuotient, Bool.and_eq_true, bne_iff_ne, ne_eq, decide_eq_decide]
    omega
  rw [Bool.eq_iff_iff, hsign, signedNumerator]
  cases hnegative : e.negative with
  | false =>
    rw [if_neg Bool.false_ne_true]
    constructor
    · intro hlt
      omega
    · intro hfalse
      cases hfalse
  | true =>
    have hne := mt e.numerator_eq_zero_iff.mp (h.signed hnegative)
    rw [if_pos rfl]
    constructor
    · intro hlt
      rfl
    · intro htrue
      omega

theorem Canonical.ofFraction_eq {e : Expansion} (h : e.Canonical) :
    ofFraction .describe e.signedNumerator e.denominator = .ok e := by
  have hlt := value_period_lt h
  have hne : (e.denominator : Int) ≠ 0 := Int.natCast_ne_zero.mpr e.denominator_pos.ne'
  obtain ⟨start, length, hrepeats, he⟩ := ofFraction_describe e.signedNumerator hne
  rw [natAbs_signedNumerator, Int.natAbs_natCast] at hrepeats he
  obtain ⟨rfl, rfl⟩ := hrepeats.unique h.repeats
  rw [he, h.sign_eq, numerator_div hlt, remainderAt_preperiod hlt,
    digitsOf_preperiod hlt, digitsOf_period hlt]

/-- What is found by division is written by the rules. -/
theorem canonical_ofFraction {n d : Int} {e : Expansion} (h : ofFraction .describe n d = .ok e) :
    e.Canonical := by
  obtain ⟨hd, start, length, hrepeats, he⟩ := exists_repeats_of_ofFraction h
  have hproportional := proportional_ofFraction h
  constructor
  case signed =>
    intro hnegative
    rw [← numerator_eq_zero_iff, hproportional.eq_zero_iff, Int.natAbs_eq_zero]
    intro hzero
    rw [he, hzero] at hnegative
    cases hnegative
  case digits =>
    rw [he]
    exact hrepeats.canonical hproportional.pos'

/--
**Division finds the expansions that are written by the rules**, and no others. Such an expansion is
found from its value in lowest terms, and from any other fraction of this value.
-/
theorem ofFraction_eq_ok_iff (e : Expansion) :
    (ofFraction .describe e.exactValue.num e.exactValue.den = .ok e ↔ e.Canonical)
      ∧ ∀ n d : Int, ofFraction .describe n d = .ok e
          ↔ d ≠ 0 ∧ e.exactValue = n / d ∧ e.Canonical := by
  have hfraction (n d : Int) : ofFraction .describe n d = .ok e
      ↔ d ≠ 0 ∧ e.exactValue = n / d ∧ e.Canonical := by
    constructor
    · intro h
      exact ⟨(exists_repeats_of_ofFraction h).1, exactValue_ofFraction h, canonical_ofFraction h⟩
    · rintro ⟨hd, hvalue, hcanonical⟩
      have hne : (e.denominator : Int) ≠ 0 := Int.natCast_ne_zero.mpr e.denominator_pos.ne'
      rw [exactValue_eq_div, div_eq_div_iff_cross hne hd] at hvalue
      rw [← ofFraction_congr hne hd hvalue, hcanonical.ofFraction_eq]
  refine ⟨?_, hfraction⟩
  have hden : (e.exactValue.den : Int) ≠ 0 := Int.natCast_ne_zero.mpr e.exactValue.den_nz
  have hvalue : e.exactValue = e.exactValue.num / (e.exactValue.den : Int) :=
    (Rat.num_div_den e.exactValue).symm
  rw [hfraction]
  exact ⟨fun h => h.2.2, fun h => ⟨hden, hvalue, h⟩⟩

/-- A period that begins too late. -/
example : Canonical ⟨true, 0, [], [1, 2]⟩ ∧ ¬ Canonical ⟨true, 0, [1], [2, 1]⟩ := by decide

end Expansion

end Recurrence
