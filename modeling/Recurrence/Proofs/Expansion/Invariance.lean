import Recurrence.Proofs.Expansion.Fraction
import Recurrence.Proofs.Expansion.RoundTrip

/-!
# Division depends on the value only

Two fractions of one value are divided in step. The remainders of the one division are not those of
the other, but they have the same ratio to the divisor from beginning to end, so a remainder comes
back in the one division exactly when one comes back in the other, and the digits are the same.

The expansion has the value of the fraction, so different values have different expansions, and
their texts differ as well, since an expansion can be read back from its text.
-/

namespace Recurrence

namespace LongDivision

variable {divisor numerator divisor' numerator' start length start' length' : Nat}

/-! ## Fractions of one value -/

/-- Two fractions have the same value. -/
structure Proportional (divisor numerator divisor' numerator' : Nat) : Prop where
  pos : 0 < divisor
  pos' : 0 < divisor'
  cross : numerator * divisor' = numerator' * divisor

namespace Proportional

theorem symm (h : Proportional divisor numerator divisor' numerator') :
    Proportional divisor' numerator' divisor numerator :=
  ⟨h.pos', h.pos, h.cross.symm⟩

theorem mul_right (h : Proportional divisor numerator divisor' numerator') (c : Nat) :
    Proportional divisor (numerator * c) divisor' (numerator' * c) := by
  refine ⟨h.pos, h.pos', ?_⟩
  rw [Nat.mul_right_comm, h.cross, Nat.mul_right_comm]

theorem mod (h : Proportional divisor numerator divisor' numerator') :
    Proportional divisor (numerator % divisor) divisor' (numerator' % divisor') := by
  refine ⟨h.pos, h.pos', ?_⟩
  rw [← Nat.mul_mod_mul_right, ← Nat.mul_mod_mul_right, h.cross, Nat.mul_comm divisor divisor']

theorem div_eq (h : Proportional divisor numerator divisor' numerator') :
    numerator / divisor = numerator' / divisor' := by
  rw [← Nat.mul_div_mul_right numerator divisor h.pos', h.cross, Nat.mul_comm divisor,
    Nat.mul_div_mul_right _ _ h.pos]

/-- The remainders keep the ratio to the divisor. -/
theorem remainderAt (h : Proportional divisor numerator divisor' numerator') (i : Nat) :
    Proportional divisor (LongDivision.remainderAt divisor numerator i)
      divisor' (LongDivision.remainderAt divisor' numerator' i) :=
  (h.mul_right (10 ^ i)).mod

theorem eq_zero_iff (h : Proportional divisor numerator divisor' numerator') :
    numerator = 0 ↔ numerator' = 0 := by
  have hpos := h.pos
  have hpos' := h.pos'
  have hcross := h.cross
  constructor
  · rintro rfl
    rw [Nat.zero_mul, eq_comm, Nat.mul_eq_zero] at hcross
    omega
  · rintro rfl
    rw [Nat.zero_mul, Nat.mul_eq_zero] at hcross
    omega

/-- Equal remainders have equal counterparts. -/
theorem remainderAt_eq (h : Proportional divisor numerator divisor' numerator') {i j : Nat}
    (heq : LongDivision.remainderAt divisor numerator i
      = LongDivision.remainderAt divisor numerator j) :
    LongDivision.remainderAt divisor' numerator' i
      = LongDivision.remainderAt divisor' numerator' j := by
  apply Nat.eq_of_mul_eq_mul_right h.pos
  rw [← (h.remainderAt i).cross, heq, (h.remainderAt j).cross]

theorem digitsOf_eq (h : Proportional divisor numerator divisor' numerator') (k : Nat) :
    digitsOf divisor numerator k = digitsOf divisor' numerator' k := by
  refine List.map_congr_left fun i _ => ?_
  exact congrArg Digit.ofNat ((h.remainderAt i).mul_right 10).div_eq

/-- The two divisions begin to come round at the same time. -/
theorem repeats (h : Proportional divisor numerator divisor' numerator')
    (hrepeats : Repeats divisor numerator start length) :
    Repeats divisor' numerator' start length where
  returns := h.remainderAt_eq hrepeats.returns
  stops hlength := (h.remainderAt start).eq_zero_iff.mp (hrepeats.stops hlength)
  nonzero i hi := mt (h.remainderAt i).eq_zero_iff.mpr (hrepeats.nonzero i hi)
  distinct i hi j hj heq := hrepeats.distinct i hi j hj (h.symm.remainderAt_eq heq)

end Proportional

/-! ## The two lengths -/

/-- One of two divisions of the same fraction is not longer than the other. -/
theorem Repeats.not_lt (h : Repeats divisor numerator start length)
    (h' : Repeats divisor numerator start' length') : ¬ start + length < start' + length' := by
  intro hlt
  rcases Nat.eq_zero_or_pos length with rfl | hpos
  · exact h'.nonzero start (by omega) (h.stops rfl)
  · have := h'.distinct (start + length) (by omega) start (by omega) h.returns
    omega

theorem Repeats.start_le (h : Repeats divisor numerator start length)
    (h' : Repeats divisor numerator start' length') : start ≤ start' := by
  have hsum := h.not_lt h'
  have hsum' := h'.not_lt h
  by_contra hlt
  rcases Nat.eq_zero_or_pos length with rfl | hpos
  · -- the remainder that comes back would be the zero at the end
    have hzero := h.stops rfl
    rw [show start = start' + length' by omega, h'.returns] at hzero
    exact h.nonzero start' (by omega) hzero
  · have hsame : remainderAt divisor numerator start' = remainderAt divisor numerator start := by
      rw [← h'.returns, ← h.returns, show start' + length' = start + length by omega]
    have := h.distinct start' (by omega) start (by omega) hsame
    omega

/-- Where the digits repeat is settled by the fraction. -/
theorem Repeats.unique (h : Repeats divisor numerator start length)
    (h' : Repeats divisor numerator start' length') : start = start' ∧ length = length' := by
  have hsum := h.not_lt h'
  have hsum' := h'.not_lt h
  have hstart := h.start_le h'
  have hstart' := h'.start_le h
  omega

end LongDivision

namespace Expansion

open LongDivision

/-! ## The value of a quotient -/

theorem proportional_natAbs {n d n' d' : Int} (hd : d ≠ 0) (hd' : d' ≠ 0)
    (h : n * d' = n' * d) : Proportional d.natAbs n.natAbs d'.natAbs n'.natAbs where
  pos := Int.natAbs_pos.mpr hd
  pos' := Int.natAbs_pos.mpr hd'
  cross := by rw [← Int.natAbs_mul, h, Int.natAbs_mul]

/-- Quotients are compared by multiplying crosswise. -/
theorem div_eq_div_iff_cross {n d n' d' : Int} (hd : d ≠ 0) (hd' : d' ≠ 0) :
    (n / d : ℚ) = n' / d' ↔ n * d' = n' * d := by
  rw [div_eq_div_iff (Int.cast_ne_zero.mpr hd) (Int.cast_ne_zero.mpr hd')]
  norm_cast

/-- Fractions of one value have the same expansion. -/
theorem ofFraction_congr {n d n' d' : Int} (hd : d ≠ 0) (hd' : d' ≠ 0) (h : n * d' = n' * d) :
    ofFraction .describe n d = ofFraction .describe n' d' := by
  have hproportional := proportional_natAbs hd hd' h
  have hproper := hproportional.mod
  have hsign : isNegativeQuotient n d = isNegativeQuotient n' d' := by
    rw [Bool.eq_iff_iff, isNegativeQuotient_iff n hd, isNegativeQuotient_iff n' hd',
      (div_eq_div_iff_cross hd hd').mpr h]
  obtain ⟨start, length, hrepeats, he⟩ := ofFraction_describe n hd
  obtain ⟨start', length', hrepeats', he'⟩ := ofFraction_describe n' hd'
  obtain ⟨rfl, rfl⟩ := (hproper.repeats hrepeats).unique hrepeats'
  rw [he, he', hsign, hproportional.div_eq, hproper.digitsOf_eq,
    (hproper.remainderAt start).digitsOf_eq]

/-- A period is worth what the remainder in front of it is, in nines. -/
theorem value_period_mul {divisor numerator start length : Nat}
    (h : Repeats divisor numerator start length) (hpos : 0 < divisor) {e : Expansion}
    (hperiod : e.period = digitsOf divisor (remainderAt divisor numerator start) length) :
    Digits.value e.period * divisor
      = remainderAt divisor numerator start * e.periodFactor := by
  have hvalue := value_digitsOf (remainderAt_lt hpos numerator start) length
  rw [remainderAt_remainderAt, h.returns, ← hperiod, Nat.mul_comm divisor] at hvalue
  have hlength : e.period.length = length := by rw [hperiod, digitsOf_length]
  unfold periodFactor
  rcases Nat.eq_zero_or_pos length with rfl | hlt
  · have hnil : e.period = [] := List.length_eq_zero_iff.mp hlength
    rw [if_pos hnil, Nat.mul_one]
    rw [Nat.pow_zero, Nat.mul_one] at hvalue
    have hzero := h.stops rfl
    omega
  · have hne : e.period ≠ [] := List.length_pos_iff.mp (hlength ▸ hlt)
    rw [if_neg hne, hlength, Nat.mul_sub, Nat.mul_one, ← hvalue, Nat.add_sub_cancel]

/-- A quotient that has an expansion is described by its remainders. -/
theorem exists_repeats_of_ofFraction {n d : Int} {e : Expansion}
    (h : ofFraction .describe n d = .ok e) :
    d ≠ 0 ∧ ∃ start length, Repeats d.natAbs (n.natAbs % d.natAbs) start length
      ∧ e = ⟨isNegativeQuotient n d, n.natAbs / d.natAbs,
          digitsOf d.natAbs (n.natAbs % d.natAbs) start,
          digitsOf d.natAbs (remainderAt d.natAbs (n.natAbs % d.natAbs) start) length⟩ := by
  have hd : d ≠ 0 := by
    rintro rfl
    rw [ofFraction, if_pos rfl] at h
    cases h
  obtain ⟨start, length, hrepeats, he⟩ := ofFraction_describe n hd
  rw [he] at h
  exact ⟨hd, start, length, hrepeats, (Except.ok.inj h).symm⟩

/-- The numerator and the denominator of the expansion make up the fraction again. -/
theorem proportional_ofFraction {n d : Int} {e : Expansion}
    (h : ofFraction .describe n d = .ok e) :
    Proportional e.denominator e.numerator d.natAbs n.natAbs := by
  obtain ⟨hd, start, length, hrepeats, he⟩ := exists_repeats_of_ofFraction h
  have hpos : 0 < d.natAbs := Int.natAbs_pos.mpr hd
  have hperiod := value_period_mul hrepeats hpos (congrArg period he)
  have hlead := value_digitsOf (Nat.mod_lt n.natAbs hpos) start
  have hwhole := Nat.div_add_mod n.natAbs d.natAbs
  have hpreperiod : e.preperiod = digitsOf d.natAbs (n.natAbs % d.natAbs) start :=
    congrArg preperiod he
  have hlength : e.preperiod.length = start := by rw [hpreperiod, digitsOf_length]
  have hinteger : e.integerPart = n.natAbs / d.natAbs := congrArg integerPart he
  refine ⟨e.denominator_pos, hpos, ?_⟩
  rw [← hpreperiod, ← hlength] at hlead
  rw [← hlength] at hperiod
  rw [← hinteger] at hwhole
  generalize remainderAt d.natAbs (n.natAbs % d.natAbs) e.preperiod.length = r at hlead hperiod
  calc e.numerator * d.natAbs
      = d.natAbs * e.integerPart * e.denominator
        + d.natAbs * Digits.value e.preperiod * e.periodFactor
        + Digits.value e.period * d.natAbs := by rw [numerator]; ring
    _ = d.natAbs * e.integerPart * e.denominator
        + (d.natAbs * Digits.value e.preperiod + r) * e.periodFactor := by rw [hperiod]; ring
    _ = (d.natAbs * e.integerPart + n.natAbs % d.natAbs) * e.denominator := by
      rw [hlead, denominator]; ring
    _ = n.natAbs * e.denominator := by rw [hwhole]

/-- The expansion of a quotient has its value. -/
theorem exactValue_ofFraction {n d : Int} {e : Expansion}
    (h : ofFraction .describe n d = .ok e) : e.exactValue = n / d := by
  obtain ⟨hd, _, _, -, he⟩ := exists_repeats_of_ofFraction h
  have hproportional := proportional_ofFraction h
  have hne : (e.denominator : ℚ) ≠ 0 := Nat.cast_ne_zero.mpr e.denominator_pos.ne'
  have hne' : (d.natAbs : ℚ) ≠ 0 := Nat.cast_ne_zero.mpr hproportional.pos'.ne'
  have hmagnitude : (e.numerator / e.denominator : ℚ) = n.natAbs / d.natAbs := by
    rw [div_eq_div_iff hne hne']
    exact_mod_cast hproportional.cross
  have hsign : e.negative = isNegativeQuotient n d := congrArg negative he
  rw [exactValue_eq, hmagnitude, hsign, sign_mul_magnitude n hd]

/-! ## The text of a quotient -/

theorem ofText_of_le {e : Expansion} (h : e.integerPart ≤ maxInteger) : ofText e.text = .ok e := by
  rw [ofText_eq_ok_iff, text, String.toList_ofList]
  exact spells_chars h

/-- Expansions are told apart by their texts. -/
theorem text_inj {e e' : Expansion} (h : e.integerPart ≤ maxInteger)
    (h' : e'.integerPart ≤ maxInteger) (htext : e.text = e'.text) : e = e' := by
  have hread := ofText_of_le h
  rw [htext, ofText_of_le h'] at hread
  exact (Except.ok.inj hread).symm

/-- Two quotients have the same expansion exactly if they are equal. -/
theorem eq_iff_cross {n d n' d' : Int} {e e' : Expansion} (he : ofFraction .describe n d = .ok e)
    (he' : ofFraction .describe n' d' = .ok e') : e = e' ↔ n * d' = n' * d := by
  obtain ⟨hd, -⟩ := exists_repeats_of_ofFraction he
  obtain ⟨hd', -⟩ := exists_repeats_of_ofFraction he'
  constructor
  · intro h
    rw [← div_eq_div_iff_cross hd hd', ← exactValue_ofFraction he, h, exactValue_ofFraction he']
  · intro h
    rw [ofFraction_congr hd hd' h, he'] at he
    exact (Except.ok.inj he).symm

/--
**Division depends on the value only.** Two fractions have the same expansion, and the same text,
exactly if they are equal as rational numbers.
-/
theorem ofFraction_eq_iff (n d n' d' : Int64) (hd : d ≠ 0) (hd' : d' ≠ 0) :
    ∃ e e', ofFraction .describe n.toInt d.toInt = .ok e
      ∧ ofFraction .describe n'.toInt d'.toInt = .ok e'
      ∧ (e = e' ↔ n.toInt * d'.toInt = n'.toInt * d.toInt)
      ∧ (e.text = e'.text ↔ n.toInt * d'.toInt = n'.toInt * d.toInt) := by
  have hne : d.toInt ≠ 0 := fun h => hd (Int64.toInt_inj.mp h)
  have hne' : d'.toInt ≠ 0 := fun h => hd' (Int64.toInt_inj.mp h)
  obtain ⟨_, _, -, he⟩ := ofFraction_describe n.toInt hne
  obtain ⟨_, _, -, he'⟩ := ofFraction_describe n'.toInt hne'
  refine ⟨_, _, he, he', eq_iff_cross he he', ?_⟩
  rw [← eq_iff_cross he he']
  refine ⟨text_inj ?_ ?_, congrArg text⟩
  · exact natAbs_div_le_maxInteger n d.toInt
  · exact natAbs_div_le_maxInteger n' d'.toInt

/-- The least word with a common factor, a zero over it, two signs that cancel, and two fractions
that differ. -/
theorem ofFraction_eq_iff_extremes :
    (∃ e, ofFraction .describe Int64.minValue.toInt (-6) = .ok e
      ∧ ofFraction .describe (2 ^ 62) 3 = .ok e)
    ∧ (∃ e, ofFraction .describe 0 Int64.minValue.toInt = .ok e
      ∧ ofFraction .describe 0 1 = .ok e)
    ∧ ∃ e e', ofFraction .describe 1 3 = .ok e ∧ ofFraction .describe 1 4 = .ok e'
      ∧ e.text ≠ e'.text := by
  have hlarge : (2 ^ 62 : Int64).toInt = 2 ^ 62 := by decide +kernel
  obtain ⟨e, _, he, he', hsame, -⟩ :=
    ofFraction_eq_iff Int64.minValue (-6) (2 ^ 62) 3 (by decide) (by decide)
  rw [hlarge] at he' hsame
  cases hsame.mpr (by decide)
  obtain ⟨z, _, hz, hz', hzero, -⟩ :=
    ofFraction_eq_iff 0 Int64.minValue 0 1 (by decide) (by decide)
  cases hzero.mpr (by decide)
  obtain ⟨t, q, ht, hq, -, htext⟩ := ofFraction_eq_iff 1 3 1 4 (by decide) (by decide)
  exact ⟨⟨e, he, he'⟩, ⟨z, hz, hz'⟩, t, q, ht, hq, mt htext.mp (by decide)⟩

end Expansion

end Recurrence
