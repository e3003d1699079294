import Mathlib.Order.Bounds.Basic
import Recurrence.Proofs.Expansion.Exact

/-!
# How long the parts of an expansion are

In lowest terms a divisor is `2 ^ a * 5 ^ b * m` with no factor of ten in `m`. Two remainders are
equal when the divisor so reduced divides `10 ^ i * (10 ^ t - 1)`, where `i` and `i + t` are their
positions, and this falls into two questions that know nothing of each other: the powers of two and
five ask for `i` to be large enough, and `m` asks for a suitable `t`.

So the position at which the remainders begin to come round is the larger one of `a` and `b`, the
number of steps they take is the order of ten for `m`, and the same two questions are put to
whatever else denotes the quotient, which cannot be shorter therefore.
-/

namespace Recurrence

namespace LongDivision

variable {a b m i t x divisor numerator start length : Nat}

/-! ## Divisors of powers of ten -/

/-- Of a divisor only what it does not share with a factor has to divide the rest. -/
theorem dvd_mul_iff_div_gcd_dvd (hd : 0 < divisor) (numerator x : Nat) :
    divisor ∣ numerator * x ↔ divisor / numerator.gcd divisor ∣ x := by
  have hg : 0 < numerator.gcd divisor := Nat.gcd_pos_of_pos_right _ hd
  have hcoprime := (Nat.coprime_div_gcd_div_gcd hg).symm
  obtain ⟨n', hn⟩ := Nat.gcd_dvd_left numerator divisor
  obtain ⟨d', hd'⟩ := Nat.gcd_dvd_right numerator divisor
  rw [Nat.div_eq_of_eq_mul_right hg hd', Nat.div_eq_of_eq_mul_right hg hn] at hcoprime
  rw [Nat.div_eq_of_eq_mul_right hg hd']
  have hsplit : divisor ∣ numerator * x
      ↔ numerator.gcd divisor * d' ∣ numerator.gcd divisor * (n' * x) := by
    rw [← hd', ← Nat.mul_assoc, ← hn]
  rw [hsplit, Nat.mul_dvd_mul_iff_left hg, hcoprime.dvd_mul_left]

/-- How often a prime factor of ten goes into a multiple of a power of ten. -/
theorem factor_pow_dvd_iff {p c : Nat} (hten : 10 = p * c) (hp : 1 < p) (hc : p.Coprime c)
    (hx : x.Coprime 10) (a i : Nat) : p ^ a ∣ 10 ^ i * x ↔ a ≤ i := by
  have hpx : p.Coprime x := (hx.coprime_dvd_right (hten ▸ Nat.dvd_mul_right p c)).symm
  rw [(hpx.pow_left a).dvd_mul_right, hten, Nat.mul_pow,
    (hc.pow a i).dvd_mul_right, Nat.pow_dvd_pow_iff_le_right hp]

/-- A divisor of a multiple of a power of ten: twos and fives go into the power, and all else into
the factor. -/
theorem dvd_ten_pow_mul_iff (hm : m.Coprime 10) (hx : x.Coprime 10) :
    2 ^ a * 5 ^ b * m ∣ 10 ^ i * x ↔ max a b ≤ i ∧ m ∣ x := by
  have htwo := factor_pow_dvd_iff (p := 2) (c := 5) rfl (by decide) (by decide) hx a i
  have hfive := factor_pow_dvd_iff (p := 5) (c := 2) rfl (by decide) (by decide) hx b i
  have hrest : m ∣ 10 ^ i * x ↔ m ∣ x := (hm.pow_right i).dvd_mul_left
  rw [max_le_iff, ← htwo, ← hfive, ← hrest]
  have hm2 : m.Coprime 2 := hm.coprime_dvd_right (by decide)
  have hm5 : m.Coprime 5 := hm.coprime_dvd_right (by decide)
  have hfirst : (2 ^ a).Coprime (5 ^ b) := Nat.Coprime.pow a b (by decide)
  have hlast : (2 ^ a * 5 ^ b).Coprime m :=
    Nat.Coprime.mul_left (hm2.symm.pow_left a) (hm5.symm.pow_left b)
  constructor
  · intro h
    exact ⟨⟨((Nat.dvd_mul_right _ _).mul_right m).trans h,
      ((Nat.dvd_mul_left _ _).mul_right m).trans h⟩, (Nat.dvd_mul_left _ _).trans h⟩
  · rintro ⟨⟨h2, h5⟩, h⟩
    exact hlast.mul_dvd_of_dvd_of_dvd (hfirst.mul_dvd_of_dvd_of_dvd h2 h5) h

theorem coprime_ten_pow_sub_one (ht : 0 < t) : (10 ^ t - 1).Coprime 10 := by
  have hpow : 1 ≤ 10 ^ t := Nat.one_le_pow _ _ (by decide)
  have hnext : (10 ^ t - 1).Coprime (10 ^ t - 1 + 1) := Nat.coprime_self_add_right.mpr (by simp)
  rw [Nat.sub_add_cancel hpow] at hnext
  exact hnext.coprime_dvd_right (dvd_pow_self 10 ht.ne')

/-! ## When remainders come back -/

/-- In lowest terms the divisor is made of twos, fives and a number without factors of ten. -/
structure Reduces (divisor numerator a b m : Nat) : Prop where
  pos : 0 < divisor
  reduced : divisor / numerator.gcd divisor = 2 ^ a * 5 ^ b * m
  coprime : m.Coprime 10

/-- The divisor divides a multiple of a power of ten. -/
theorem Reduces.dvd_iff (h : Reduces divisor numerator a b m) (hx : x.Coprime 10) :
    divisor ∣ numerator * (10 ^ i * x) ↔ max a b ≤ i ∧ m ∣ x := by
  rw [dvd_mul_iff_div_gcd_dvd h.pos, h.reduced, dvd_ten_pow_mul_iff h.coprime hx]

/-- Nothing remains. -/
theorem Reduces.remainderAt_eq_zero_iff (h : Reduces divisor numerator a b m) :
    remainderAt divisor numerator i = 0 ↔ max a b ≤ i ∧ m = 1 := by
  have hdvd := h.dvd_iff (i := i) (x := 1) (by decide)
  rw [Nat.mul_one, Nat.dvd_one] at hdvd
  rw [remainderAt, ← Nat.dvd_iff_mod_eq_zero, hdvd]

/-- A remainder comes back after `t` digits. -/
theorem Reduces.remainderAt_add_eq_iff (h : Reduces divisor numerator a b m) (ht : 0 < t) :
    remainderAt divisor numerator (i + t) = remainderAt divisor numerator i
      ↔ max a b ≤ i ∧ m ∣ 10 ^ t - 1 := by
  have hle : numerator * 10 ^ i ≤ numerator * 10 ^ (i + t) :=
    Nat.mul_le_mul_left _ (Nat.pow_le_pow_right (by decide) (Nat.le_add_right i t))
  have hsub : numerator * 10 ^ (i + t) - numerator * 10 ^ i
      = numerator * (10 ^ i * (10 ^ t - 1)) := by
    rw [← Nat.mul_sub, Nat.pow_add, Nat.mul_sub (10 ^ i), Nat.mul_one]
  rw [← h.dvd_iff (coprime_ten_pow_sub_one ht), ← hsub, eq_comm]
  exact Nat.modEq_iff_dvd' hle

/-- The integer part has no influence on the remainders. -/
theorem Repeats.of_mod (h : Repeats divisor (numerator % divisor) start length) :
    Repeats divisor numerator start length := by
  obtain ⟨hreturns, hstops, hnonzero, hdistinct⟩ := h
  simp only [LongDivision.remainderAt_mod] at hreturns hstops hnonzero hdistinct
  exact ⟨hreturns, hstops, hnonzero, hdistinct⟩

/-- The remainders begin to come round as soon as they can. -/
theorem Repeats.start_eq (h : Repeats divisor numerator start length)
    (hr : Reduces divisor numerator a b m) : start = max a b := by
  rcases Nat.eq_zero_or_pos length with rfl | hpos
  · obtain ⟨hle, rfl⟩ := hr.remainderAt_eq_zero_iff.mp (h.stops rfl)
    have hnot : ¬ max a b < start := fun hlt =>
      h.nonzero _ hlt (hr.remainderAt_eq_zero_iff.mpr ⟨le_rfl, rfl⟩)
    omega
  · obtain ⟨hle, hdvd⟩ := (hr.remainderAt_add_eq_iff hpos).mp h.returns
    -- one position earlier there would be two equal remainders already
    have hnot : ¬ max a b < start := by
      intro hlt
      have hearly := (hr.remainderAt_add_eq_iff hpos).mpr ⟨le_rfl, hdvd⟩
      have := h.distinct (max a b + length) (by omega) (max a b) (by omega) hearly
      omega
    omega

/-- The division comes out even if the divisor has only the factors of ten. -/
theorem Repeats.length_eq_zero_iff (h : Repeats divisor numerator start length)
    (hr : Reduces divisor numerator a b m) : length = 0 ↔ m = 1 := by
  constructor
  · intro hzero
    exact (hr.remainderAt_eq_zero_iff.mp (h.stops hzero)).2
  · rintro rfl
    by_contra hne
    exact h.nonzero start (by omega)
      (hr.remainderAt_eq_zero_iff.mpr ⟨(h.start_eq hr).ge, rfl⟩)

/-- The remainders come round after the least number of digits that is possible. -/
theorem Repeats.length_isLeast (h : Repeats divisor numerator start length)
    (hr : Reduces divisor numerator a b m) (hm : m ≠ 1) :
    IsLeast {t | 1 ≤ t ∧ m ∣ 10 ^ t - 1} length := by
  have hpos : 0 < length := Nat.pos_of_ne_zero (mt (h.length_eq_zero_iff hr).mp hm)
  refine ⟨⟨hpos, ((hr.remainderAt_add_eq_iff hpos).mp h.returns).2⟩, ?_⟩
  rintro t ⟨ht, hdvd⟩
  by_contra hlt
  have hearly := (hr.remainderAt_add_eq_iff ht).mpr ⟨(h.start_eq hr).ge, hdvd⟩
  have := h.distinct (start + t) (by omega) start (by omega) hearly
  omega

end LongDivision

namespace Expansion

open LongDivision

/-! ## Other expansions of the same number -/

/-- The factor of the denominator that comes from the period; without one there is none. -/
def periodFactor (e : Expansion) : Nat :=
  if e.period = [] then 1 else 10 ^ e.period.length - 1

/-- The two lengths of an expansion give a denominator of what it denotes. -/
theorem exists_exactValue_mul (e : Expansion) :
    ∃ z : ℤ, e.exactValue * (10 ^ e.preperiod.length * e.periodFactor : Nat) = z := by
  have hsign : ∃ s : ℤ, ((if e.negative then -1 else 1 : ℚ)) = s := by
    cases e.negative
    · exact ⟨1, by simp⟩
    · exact ⟨-1, by simp⟩
  obtain ⟨s, hs⟩ := hsign
  have hten : (10 : ℚ) ^ e.preperiod.length ≠ 0 := by positivity
  unfold exactValue periodFactor
  rw [hs]
  by_cases hperiod : e.period = []
  · refine ⟨s * (e.integerPart * 10 ^ e.preperiod.length + Digits.value e.preperiod), ?_⟩
    rw [if_pos hperiod, hperiod]
    simp only [Digits.value, List.foldl_nil, Nat.cast_zero, zero_div, add_zero]
    push_cast
    field_simp
  · have hlength : 0 < e.period.length := List.length_pos_iff.mpr hperiod
    have hone : 1 ≤ 10 ^ e.period.length := Nat.one_le_pow _ _ (by decide)
    have hnine : (10 : ℚ) ^ e.period.length - 1 ≠ 0 := by
      have hpow : (1 : ℚ) < 10 ^ e.period.length := one_lt_pow₀ (by norm_num) hlength.ne'
      linarith
    refine ⟨s * ((e.integerPart * 10 ^ e.preperiod.length + Digits.value e.preperiod)
      * (10 ^ e.period.length - 1) + Digits.value e.period), ?_⟩
    rw [if_neg hperiod, Nat.cast_mul, Nat.cast_sub hone]
    push_cast
    field_simp

/-- The denominator of a quotient divides the one that an expansion of it has. -/
theorem dvd_of_exactValue_eq {e : Expansion} {n d : Int} (hd : d ≠ 0)
    (h : e.exactValue = n / d) :
    d.natAbs ∣ n.natAbs * (10 ^ e.preperiod.length * e.periodFactor) := by
  obtain ⟨z, hz⟩ := e.exists_exactValue_mul
  have hdQ : (d : ℚ) ≠ 0 := Int.cast_ne_zero.mpr hd
  rw [h, div_mul_eq_mul_div, div_eq_iff hdQ] at hz
  have hmul : n * ((10 ^ e.preperiod.length * e.periodFactor : Nat) : ℤ) = z * d := by
    exact_mod_cast hz
  have hdvd := Int.natAbs_dvd_natAbs.mpr (Dvd.intro_left z hmul.symm)
  rwa [Int.natAbs_mul, Int.natAbs_natCast] at hdvd

/-- **No expansion of a quotient is shorter**, in either of its parts. -/
theorem le_of_exactValue_eq {e : Expansion} {n d : Int} {start length a b m : Nat}
    (hr : Reduces d.natAbs n.natAbs a b m) (h : Repeats d.natAbs n.natAbs start length)
    (he : e.exactValue = n / d) :
    start ≤ e.preperiod.length ∧ length ≤ e.period.length := by
  have hd : d ≠ 0 := Int.natAbs_pos.mp hr.pos
  have hdvd := dvd_of_exactValue_eq hd he
  rw [h.start_eq hr]
  unfold periodFactor at hdvd
  by_cases hperiod : e.period = []
  · rw [if_pos hperiod, hr.dvd_iff (by decide), Nat.dvd_one] at hdvd
    have hzero := (h.length_eq_zero_iff hr).mpr hdvd.2
    exact ⟨hdvd.1, by omega⟩
  · have hlength : 0 < e.period.length := List.length_pos_iff.mpr hperiod
    rw [if_neg hperiod, hr.dvd_iff (coprime_ten_pow_sub_one hlength)] at hdvd
    refine ⟨hdvd.1, ?_⟩
    by_cases hm : m = 1
    · rw [(h.length_eq_zero_iff hr).mpr hm]
      exact Nat.zero_le _
    · exact (h.length_isLeast hr hm).2 ⟨hlength, hdvd.2⟩

/-! ## The shape -/

/--
**The shape of an expansion.** In lowest terms let the denominator be `2 ^ a * 5 ^ b * m`, with no
factor of ten in `m`. The expansion terminates if `m` is one, it has `max a b` digits in front of
its period, and the period is as long as the least number of nines that `m` divides. Whatever else
denotes the quotient is no shorter.
-/
theorem ofFraction_shape (n d : Int) (hd : d ≠ 0) (a b m : Nat)
    (hq : d.natAbs / Nat.gcd n.natAbs d.natAbs = 2 ^ a * 5 ^ b * m) (hm : m.Coprime 10) :
    ∃ e, ofFraction .describe n d = .ok e
      ∧ (e.isRepeating = false ↔ m = 1)
      ∧ e.preperiod.length = max a b
      ∧ (1 < m → IsLeast {t | 1 ≤ t ∧ m ∣ 10 ^ t - 1} e.period.length)
      ∧ ∀ e' : Expansion, e'.exactValue = n / d →
          e.preperiod.length ≤ e'.preperiod.length ∧ e.period.length ≤ e'.period.length := by
  have hr : Reduces d.natAbs n.natAbs a b m := ⟨Int.natAbs_pos.mpr hd, hq, hm⟩
  obtain ⟨start, length, hrepeats, he⟩ := ofFraction_describe n hd
  have hrepeats' := hrepeats.of_mod
  refine ⟨_, he, ?terminates, ?preperiod, ?period, ?shortest⟩
  case terminates =>
    rw [← hrepeats'.length_eq_zero_iff hr, isRepeating, Bool.not_eq_false', List.isEmpty_iff,
      ← List.length_eq_zero_iff, digitsOf_length]
  case preperiod => rw [digitsOf_length, hrepeats'.start_eq hr]
  case period =>
    intro hlt
    rw [digitsOf_length]
    exact hrepeats'.length_isLeast hr hlt.ne'
  case shortest =>
    intro e' he'
    rw [digitsOf_length, digitsOf_length]
    exact le_of_exactValue_eq hr hrepeats' he'

/-- `-22 / 84` is `-11 / 42`, and `42` is `2 * 21`: one digit, and then six that repeat. -/
theorem ofFraction_shape_fortySeconds :
    ∃ e, ofFraction .describe (-22) 84 = .ok e ∧ e.isRepeating = true ∧ e.preperiod.length = 1
      ∧ IsLeast {t | 1 ≤ t ∧ 21 ∣ 10 ^ t - 1} e.period.length := by
  obtain ⟨e, he, hrepeating, hpreperiod, hperiod, -⟩ :=
    ofFraction_shape (-22) 84 (by decide) 1 0 21 (by decide) (by decide)
  refine ⟨e, he, ?_, hpreperiod, hperiod (by decide)⟩
  by_contra h
  exact absurd (hrepeating.mp (Bool.not_eq_true _ ▸ h)) (by decide)

end Expansion

end Recurrence
