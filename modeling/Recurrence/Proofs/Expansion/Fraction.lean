import Mathlib.Tactic.NormNum
import Recurrence.Expansion.Ratio
import Recurrence.Proofs.Expansion.Shape

/-!
# The fraction of an expansion is exact

An expansion has a numerator and a denominator, and the computation in words finds them whenever
they are words. All other numbers that it forms on the way are no greater than one of these two, so
no step gives up too early. There is one exception: the power of ten behind the denominator of a
period is greater by one. But it is no power of two, so it is a word if its predecessor is one.

The steps that are not checked cannot go wrong. They come after a power of ten that is at least one,
after a numerator that is not negative, and after a denominator that is not zero.
-/

namespace Recurrence

namespace Digits

/-- A digit string is below the power of ten that has one zero for each of its digits. -/
theorem value_lt (ds : List Digit) : value ds < 10 ^ ds.length := by
  induction ds using List.reverseRecOn with
  | nil => simp [value]
  | append_singleton ds d ih =>
    have hd := d.isLt
    rw [value_append_singleton, List.length_append, List.length_singleton, Nat.pow_succ]
    omega

end Digits

namespace Expansion

/-! ## Numerator and denominator -/

/-- A power of ten for the digits before the repetition, and as many nines as there are digits that
repeat. -/
def denominator (e : Expansion) : Nat := 10 ^ e.preperiod.length * e.periodFactor

/-- What the integer part, the digits before the repetition and the repeating ones contribute. -/
def numerator (e : Expansion) : Nat :=
  e.integerPart * e.denominator + Digits.value e.preperiod * e.periodFactor
    + Digits.value e.period

theorem periodFactor_pos (e : Expansion) : 0 < e.periodFactor := by
  unfold periodFactor
  split
  · exact Nat.one_pos
  · rename_i hperiod
    have hpow : 1 < 10 ^ e.period.length :=
      Nat.one_lt_pow (List.length_pos_iff.mpr hperiod).ne' (by decide)
    omega

theorem denominator_pos (e : Expansion) : 0 < e.denominator :=
  Nat.mul_pos (Nat.pow_pos (by decide)) e.periodFactor_pos

/-- The value is the numerator over the denominator, with the sign. -/
theorem exactValue_eq (e : Expansion) :
    e.exactValue = (if e.negative then -1 else 1) * ((e.numerator : ℚ) / e.denominator) := by
  have hten : (10 : ℚ) ^ e.preperiod.length ≠ 0 := by positivity
  unfold exactValue numerator denominator periodFactor
  congr 1
  by_cases hperiod : e.period = []
  · have hnone : Digits.value [] = 0 := rfl
    rw [if_pos hperiod, hperiod, hnone]
    push_cast
    field_simp
    ring
  · have hone : 1 ≤ 10 ^ e.period.length := Nat.one_le_pow _ _ (by decide)
    have hnine : (10 : ℚ) ^ e.period.length - 1 ≠ 0 := by
      have hpow : (1 : ℚ) < 10 ^ e.period.length :=
        one_lt_pow₀ (by norm_num) (List.length_pos_iff.mpr hperiod).ne'
      linarith
    rw [if_neg hperiod]
    push_cast [Nat.cast_sub hone]
    field_simp

/-! ## Steps in words -/

/-- The steps come to this result if something fits, and otherwise they give up. They never break
down. -/
structure Gives {A : Type} (steps : InWords A) (a : A) (fits : Prop) : Prop where
  result : fits → steps = pure a
  givesUp : ¬ fits → steps = failure

theorem isWord_natCast {n : Nat} : IsWord n ↔ n ≤ maxWord := by
  unfold IsWord
  omega

theorem gives_checked (n : Nat) : Gives (checked n) n (n ≤ maxWord) where
  result h := if_pos (isWord_natCast.mpr h)
  givesUp h := if_neg (mt isWord_natCast.mp h)

theorem gives_sum (a b : Nat) :
    Gives (checked (a + b)) ((a + b : Nat) : Int) (a + b ≤ maxWord) := by
  have h := gives_checked (a + b)
  rwa [Nat.cast_add] at h ⊢

theorem gives_product (a b : Nat) :
    Gives (checked (a * b)) ((a * b : Nat) : Int) (a * b ≤ maxWord) := by
  have h := gives_checked (a * b)
  rwa [Nat.cast_mul] at h ⊢

/-- Taking one away is not checked. -/
theorem gives_predecessor {n : Nat} (hpos : 1 ≤ n) (hn : n ≤ maxWord) :
    Gives (unchecked (n - 1)) ((n - 1 : Nat) : Int) True := by
  rw [Nat.cast_sub hpos]
  exact ⟨fun _ => if_pos (by unfold IsWord; omega), by simp⟩

theorem gives_pure {A : Type} (a : A) : Gives (pure a) a True := ⟨fun _ => rfl, by simp⟩

/-- What comes next has to be known only where the steps before it fit. -/
theorem Gives.bind {A B : Type} {steps : InWords A} {next : A → InWords B} {a : A} {b : B}
    {fits fits' : Prop} (h : Gives steps a fits) (hnext : fits → Gives (next a) b fits') :
    Gives (steps >>= next) b (fits ∧ fits') where
  result hfits := by rw [h.result hfits.1, pure_bind, (hnext hfits.1).result hfits.2]
  givesUp hnot := by
    by_cases hfits : fits
    · rw [h.result hfits, pure_bind, (hnext hfits).givesUp fun hfits' => hnot ⟨hfits, hfits'⟩]
    · rw [h.givesUp hfits]
      rfl

theorem Gives.congr {A : Type} {steps : InWords A} {a b : A} {fits fits' : Prop}
    (h : Gives steps a fits) (hab : a = b) (hfits : fits ↔ fits') : Gives steps b fits' := by
  rw [← hab]
  exact ⟨fun hf => h.result (hfits.mpr hf), fun hf => h.givesUp (mt hfits.mp hf)⟩

theorem gives_wordValue (ds : List Digit) :
    Gives (wordValue ds) (Digits.value ds : Nat) (Digits.value ds ≤ maxWord) := by
  induction ds using List.reverseRecOn with
  | nil => exact (gives_pure 0).congr rfl (by decide)
  | append_singleton ds d ih =>
    have hsteps : wordValue (ds ++ [d])
        = wordValue ds >>= fun v => checked (v * 10) >>= fun w => checked (w + d.val) := by
      simp [wordValue, List.foldlM_append]
    rw [hsteps, Digits.value_append_singleton]
    refine Gives.congr (ih.bind fun _ => (gives_product (Digits.value ds) 10).bind
      fun _ => gives_sum _ d.val) ?_ ?_
    · rw [Nat.mul_comm]
    · omega

/-- No power of ten is the first number that is too large. -/
theorem ten_pow_le_maxWord {k : Nat} (h : 10 ^ k - 1 ≤ maxWord) : 10 ^ k ≤ maxWord := by
  by_contra hlarge
  have hpow : 10 ^ k = 2 ^ 127 := by
    have hmax : maxWord + 1 = 2 ^ 127 := by decide
    omega
  have hk : k ≠ 0 := by
    rintro rfl
    norm_num at hpow
  have hfive : 5 ∣ 2 ^ 127 := hpow ▸ (by decide : 5 ∣ 10).trans (dvd_pow_self 10 hk)
  exact absurd hfive (by decide)

theorem gives_powerOfTen (k : Nat) :
    Gives (powerOfTen k) ((10 ^ k : Nat) : Int) (10 ^ k ≤ maxWord) :=
  gives_checked _

theorem denominator_of_terminating {e : Expansion} (h : e.period = []) :
    e.denominator = 10 ^ e.preperiod.length := by
  rw [denominator, periodFactor, if_pos h, Nat.mul_one]

theorem numerator_of_terminating {e : Expansion} (h : e.period = []) :
    e.numerator = e.integerPart * 10 ^ e.preperiod.length + Digits.value e.preperiod := by
  have hnone : Digits.value [] = 0 := rfl
  rw [numerator, denominator_of_terminating h, periodFactor, if_pos h, h, hnone, Nat.mul_one,
    Nat.add_zero]

theorem gives_terminating {e : Expansion} (hperiod : e.period = []) :
    Gives e.fraction ((e.numerator : Int), (e.denominator : Int))
      (e.numerator ≤ maxWord ∧ e.denominator ≤ maxWord) := by
  have hnumerator := numerator_of_terminating hperiod
  have hdenominator := denominator_of_terminating hperiod
  unfold fraction
  simp only [hperiod, List.isEmpty_nil, if_true]
  refine Gives.congr ((gives_powerOfTen _).bind fun _ => (gives_wordValue _).bind fun _ =>
    (gives_product _ _).bind fun _ => (gives_sum _ _).bind fun _ => gives_pure _) ?_ ?_
  · rw [hnumerator, hdenominator]
  · rw [← hnumerator, hdenominator]
    have hlead := (Digits.value_lt e.preperiod).le
    have hwhole : e.integerPart * 10 ^ e.preperiod.length ≤ e.numerator :=
      hnumerator ▸ Nat.le_add_right _ _
    constructor
    · rintro ⟨hscale, -, -, hnum, -⟩
      exact ⟨hnum, hscale⟩
    · rintro ⟨hnum, hscale⟩
      exact ⟨hscale, hlead.trans hscale, hwhole.trans hnum, hnum, trivial⟩

theorem gives_repeating {e : Expansion} (hperiod : e.period ≠ []) :
    Gives e.fraction ((e.numerator : Int), (e.denominator : Int))
      (e.numerator ≤ maxWord ∧ e.denominator ≤ maxWord) := by
  have hperiod' : e.period.isEmpty = false := by simpa using hperiod
  have hfactor : e.periodFactor = 10 ^ e.period.length - 1 := if_neg hperiod
  have hone : 1 ≤ 10 ^ e.period.length := Nat.one_le_pow _ _ (by decide)
  unfold fraction
  simp only [hperiod', Bool.false_eq_true, if_false]
  refine Gives.congr ((gives_powerOfTen _).bind fun _ => (gives_wordValue _).bind fun _ =>
    (gives_powerOfTen _).bind fun hten => (gives_predecessor hone hten).bind fun _ =>
    (gives_wordValue _).bind fun _ => (gives_product _ _).bind fun _ =>
    (gives_product _ _).bind fun _ => (gives_product _ _).bind fun _ =>
    (gives_sum _ _).bind fun _ => (gives_sum _ _).bind fun _ => gives_pure _) ?_ ?_
  · rw [← hfactor]
    rfl
  · rw [← hfactor]
    show _ ∧ _ ∧ _ ∧ _ ∧ _ ∧ e.denominator ≤ maxWord ∧ _ ∧ _ ∧ _ ∧ e.numerator ≤ maxWord ∧ _
      ↔ _
    constructor
    · rintro ⟨-, -, -, -, -, hden, -, -, -, hnum, -⟩
      exact ⟨hnum, hden⟩
    · rintro ⟨hnum, hden⟩
      have hfits : 10 ^ e.period.length - 1 ≤ maxWord :=
        hfactor ▸ (Nat.le_mul_of_pos_left _ (Nat.pow_pos (by decide))).trans hden
      have hscale : 10 ^ e.preperiod.length ≤ e.denominator :=
        Nat.le_mul_of_pos_right _ e.periodFactor_pos
      have hlead := Nat.le_mul_of_pos_right (Digits.value e.preperiod) e.periodFactor_pos
      have hsum : e.integerPart * e.denominator + Digits.value e.preperiod * e.periodFactor
          + Digits.value e.period ≤ maxWord := hnum
      refine ⟨hscale.trans hden, ?_, ten_pow_le_maxWord hfits, trivial, ?_, hden, ?_, ?_, ?_,
        hnum, trivial⟩
      · omega
      · omega
      · show e.integerPart * e.denominator ≤ maxWord
        omega
      · omega
      · show e.integerPart * e.denominator + Digits.value e.preperiod * e.periodFactor ≤ maxWord
        omega

theorem gives_fraction (e : Expansion) :
    Gives e.fraction ((e.numerator : Int), (e.denominator : Int))
      (e.numerator ≤ maxWord ∧ e.denominator ≤ maxWord) := by
  by_cases hperiod : e.period = []
  · exact gives_terminating hperiod
  · exact gives_repeating hperiod

/-! ## The ratio -/

/-- The numerator and the denominator without their common factors, the one of them with the
sign. -/
theorem exactValue_num_den (e : Expansion) :
    e.exactValue.num = (if e.negative then -1 else 1)
        * ((e.numerator / e.numerator.gcd e.denominator : Nat) : Int)
      ∧ e.exactValue.den = e.denominator / e.numerator.gcd e.denominator := by
  have hg : 0 < e.numerator.gcd e.denominator := Nat.gcd_pos_of_pos_right _ e.denominator_pos
  obtain ⟨a, b, hcoprime, hnum, hden⟩ := Nat.exists_coprime e.numerator e.denominator
  generalize e.numerator.gcd e.denominator = g at hg hnum hden ⊢
  have hb : 0 < b := Nat.pos_of_mul_pos_right (hden ▸ e.denominator_pos)
  have hgQ : (g : ℚ) ≠ 0 := Nat.cast_ne_zero.mpr hg.ne'
  -- the common factor is of no account
  have hvalue : e.exactValue = ((if e.negative then -1 else 1) * (a : ℤ) : ℤ) / ((b : ℤ) : ℚ) := by
    rw [exactValue_eq, hnum, hden]
    push_cast
    rw [mul_div_mul_right _ _ hgQ, mul_div_assoc]
  have hcoprime' : ((if e.negative then -1 else 1) * (a : ℤ)).natAbs.Coprime (b : ℤ).natAbs := by
    split <;> simpa using hcoprime
  have hb' : (0 : ℤ) < b := Int.natCast_pos.mpr hb
  rw [hnum, hden, Nat.mul_div_cancel _ hg, Nat.mul_div_cancel _ hg, hvalue]
  exact ⟨Rat.num_div_eq_of_coprime hb' hcoprime',
    by exact_mod_cast Rat.den_div_eq_of_coprime hb' hcoprime'⟩

/-- There is something to divide by. -/
theorem quotient_denominator (e : Expansion) (n : Int) :
    quotient n e.denominator = pure ((n : ℚ) / e.denominator) := by
  have hne : (e.denominator : Int) ≠ 0 := Int.natCast_ne_zero.mpr e.denominator_pos.ne'
  rw [quotient, if_neg hne, Rat.divInt_eq_div]
  rfl

/-- The fraction is all that can fail to fit. -/
theorem ratio_eq (e : Expansion) :
    e.ratio = if e.numerator ≤ maxWord ∧ e.denominator ≤ maxWord then pure e.exactValue
      else failure := by
  have hfraction := gives_fraction e
  unfold ratio
  by_cases hfits : e.numerator ≤ maxWord ∧ e.denominator ≤ maxWord
  · rw [if_pos hfits, hfraction.result hfits, pure_bind, exactValue_eq]
    dsimp only
    cases e.negative with
    | false =>
      rw [if_neg Bool.false_ne_true, if_neg Bool.false_ne_true, pure_bind, quotient_denominator]
      simp
    | true =>
      -- with a sign the numerator is a word as well
      have hword : IsWord (-(e.numerator : Int)) := by
        unfold IsWord
        omega
      rw [if_pos rfl, if_pos rfl, unchecked, if_pos hword, pure_bind, quotient_denominator]
      push_cast
      ring_nf
  · rw [if_neg hfits, hfraction.givesUp hfits]
    rfl

/--
**The ratio is exact, and it is there if numerator and denominator are words.** Otherwise there is
none. Nothing breaks down. The ratio is in lowest terms, with the sign at its numerator.
-/
theorem ratio_exact (e : Expansion) :
    e.ratio.run = .ok (if e.numerator ≤ maxWord ∧ e.denominator ≤ maxWord
        then some e.exactValue else none)
      ∧ e.toRat? = (if e.numerator ≤ maxWord ∧ e.denominator ≤ maxWord
        then some e.exactValue else none)
      ∧ e.exactValue.num = (if e.negative then -1 else 1)
        * ((e.numerator / e.numerator.gcd e.denominator : Nat) : Int)
      ∧ e.exactValue.den = e.denominator / e.numerator.gcd e.denominator
      ∧ 0 < e.denominator := by
  have hrun : e.ratio.run = .ok (if e.numerator ≤ maxWord ∧ e.denominator ≤ maxWord
      then some e.exactValue else none) := by
    rw [ratio_eq]
    split <;> rfl
  obtain ⟨hnum, hden⟩ := e.exactValue_num_den
  exact ⟨hrun, by rw [toRat?, hrun], hnum, hden, e.denominator_pos⟩

end Expansion

end Recurrence
