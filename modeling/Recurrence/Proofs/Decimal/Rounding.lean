import Mathlib.Algebra.Order.Field.Power
import Mathlib.Data.Rat.Cast.Order
import Mathlib.Tactic.FieldSimp
import Mathlib.Tactic.Linarith
import Mathlib.Tactic.Positivity
import Mathlib.Tactic.Ring
import Recurrence.Decimal.Shortest

/-!
# A decimal reads back as one number only

A number of 64 bits stands for the reals between the middles to its two neighbours, and its shortest
decimal is one of them. The intervals of two numbers have at most an end in common. That end belongs
to the number with the even mantissa, and of two neighbours one is odd: either the mantissas follow
each other, or the lower number is the last one of its exponent, whose mantissa is odd. So the
decimal tells which number it comes from.
-/

namespace Recurrence.Decimal

/-! ## Values -/

/-- The number a decimal denotes. -/
def Scaled.value (s : Scaled) : ℚ := s.digits * 10 ^ s.exponent

/-- A power, as what stands above and below the fraction line. -/
theorem zpow_eq_div (b : ℚ) (e : ℤ) :
    b ^ e = b ^ e.toNat / b ^ (-e).toNat := by
  rcases le_total 0 e with h | h
  · obtain ⟨n, rfl⟩ := Int.eq_ofNat_of_zero_le h
    simp
  · obtain ⟨n, hn⟩ := Int.eq_ofNat_of_zero_le (Int.neg_nonneg_of_nonpos h)
    obtain rfl : e = -n := by omega
    simp

/-- Natural numbers compare as the numbers they are multiples of. -/
theorem compare_of_eq_mul {m n : Nat} {v w c : ℚ} (hc : 0 < c) (hm : (m : ℚ) = v * c)
    (hn : (n : ℚ) = w * c) : compare m n = compare v w := by
  rcases lt_trichotomy v w with h | rfl | h
  · have hlt := mul_lt_mul_of_pos_right h hc
    rw [← hm, ← hn, Nat.cast_lt] at hlt
    rw [compare_lt_iff_lt.mpr h, compare_lt_iff_lt.mpr hlt]
  · have heq := hm.trans hn.symm
    rw [Nat.cast_inj] at heq
    rw [compare_eq_iff_eq.mpr rfl, compare_eq_iff_eq.mpr heq]
  · have hgt := mul_lt_mul_of_pos_right h hc
    rw [← hm, ← hn, Nat.cast_lt] at hgt
    rw [compare_gt_iff_gt.mpr h, compare_gt_iff_gt.mpr hgt]

/-- Comparing is comparing values. -/
theorem Scaled.compareTo_eq (s : Scaled) (n : Nat) (e : ℤ) :
    s.compareTo n e = compare s.value (n * 2 ^ e) := by
  have hscale : (0 : ℚ) < 10 ^ (-s.exponent).toNat * 2 ^ (-e).toNat := by positivity
  have hleft : ((s.digits * Nat.pow 10 s.exponent.toNat * Nat.pow 2 (-e).toNat : Nat) : ℚ)
      = s.value * (10 ^ (-s.exponent).toNat * 2 ^ (-e).toNat) := by
    rw [Scaled.value, zpow_eq_div 10, Nat.pow_eq, Nat.pow_eq]
    push_cast
    field_simp
  have hright : ((n * Nat.pow 2 e.toNat * Nat.pow 10 (-s.exponent).toNat : Nat) : ℚ)
      = n * 2 ^ e * (10 ^ (-s.exponent).toNat * 2 ^ (-e).toNat) := by
    rw [zpow_eq_div 2, Nat.pow_eq, Nat.pow_eq]
    push_cast
    field_simp
  exact compare_of_eq_mul hscale hleft hright

/-- Zeros that are moved into the exponent change nothing. -/
theorem Scaled.value_trim (s : Scaled) : s.trim.value = s.value := by
  fun_induction Scaled.trim s with
  | case1 => rfl
  | case2 s h ih =>
    have hten : s.digits = 10 * (s.digits / 10) := by omega
    rw [ih]
    unfold Scaled.value
    conv_rhs => rw [hten]
    rw [zpow_add₀ (by norm_num)]
    push_cast
    ring

namespace Dyadic

/-- The number itself. -/
def value (x : Dyadic) : ℚ := x.mantissa * 2 ^ x.exponent

/-- Four times the middle to the neighbour below, in units of the last place. -/
def below (x : Dyadic) : Nat := if x.narrowBelow then 4 * x.mantissa - 1 else 4 * x.mantissa - 2

/-- Four times the middle to the neighbour above, in units of the last place. -/
def above (x : Dyadic) : Nat := 4 * x.mantissa + 2

/-- A real rounds to `x`: it lies between the middles, or on one of them if the mantissa is even. -/
structure Rounds (x : Dyadic) (v : ℚ) : Prop where
  below : x.below * 2 ^ (x.exponent - 2) ≤ v
  above : v ≤ x.above * 2 ^ (x.exponent - 2)
  ends : v = x.below * 2 ^ (x.exponent - 2) ∨ v = x.above * 2 ^ (x.exponent - 2) →
    x.mantissa % 2 = 0

theorem rounds_of_readsBack {x : Dyadic} {s : Scaled} (h : x.readsBack s = true) :
    x.Rounds s.value := by
  unfold readsBack at h
  simp only [Scaled.compareTo_eq, Bool.and_eq_true] at h
  obtain ⟨hbelow, habove⟩ := h
  have hlow : x.below * 2 ^ (x.exponent - 2) < s.value
      ∨ s.value = x.below * 2 ^ (x.exponent - 2) ∧ x.mantissa % 2 = 0 := by
    split at hbelow
    · rename_i hc
      exact .inl (compare_gt_iff_gt.mp hc)
    · rename_i hc
      exact .inr ⟨compare_eq_iff_eq.mp hc, by simpa using hbelow⟩
    · simp at hbelow
  have hhigh : s.value < x.above * 2 ^ (x.exponent - 2)
      ∨ s.value = x.above * 2 ^ (x.exponent - 2) ∧ x.mantissa % 2 = 0 := by
    split at habove
    · rename_i hc
      exact .inl (compare_lt_iff_lt.mp hc)
    · rename_i hc
      exact .inr ⟨compare_eq_iff_eq.mp hc, by simpa using habove⟩
    · simp at habove
  constructor
  case below => rcases hlow with h | ⟨h, -⟩ <;> linarith
  case above => rcases hhigh with h | ⟨h, -⟩ <;> linarith
  case ends =>
    rintro (heq | heq)
    · rcases hlow with h | ⟨-, h⟩
      · linarith
      · exact h
    · rcases hhigh with h | ⟨-, h⟩
      · linarith
      · exact h

/-! ## The shortest decimal -/

theorem readsBack_onGrid {tie : Tie} {x : Dyadic} {e : ℤ} {s : Scaled}
    (h : x.onGrid? tie e = some s) : x.readsBack s = true := by
  unfold onGrid? at h
  simp only at h
  split at h
  · rename_i hlow _
    cases h
    exact hlow
  · rename_i _ hhigh
    cases h
    exact hhigh
  · simp at h
  · rename_i hlow hhigh
    split at h
    · cases h
      exact hlow
    · cases h
      exact hhigh
    · split at h
      · cases h
        exact hlow
      · cases h
        exact hhigh

theorem value_exact (x : Dyadic) : x.exact.value = x.value := by
  unfold exact Scaled.value value
  rcases le_total 0 x.exponent with h | h
  · obtain ⟨n, hn⟩ := Int.eq_ofNat_of_zero_le h
    rw [hn]
    simp
  · obtain ⟨n, hn⟩ := Int.eq_ofNat_of_zero_le (Int.neg_nonneg_of_nonpos h)
    obtain hn : x.exponent = -n := by omega
    have hten : (10 : ℚ) ^ n = 5 ^ n * 2 ^ n := by rw [← mul_pow]; norm_num
    rw [hn]
    simp [hten]
    field_simp

/-- A number rounds to itself. -/
theorem rounds_value {x : Dyadic} (hpos : 0 < x.mantissa) : x.Rounds x.value := by
  have hunit : (0 : ℚ) < 2 ^ (x.exponent - 2) := by positivity
  have hvalue : x.value = (4 * x.mantissa : ℕ) * 2 ^ (x.exponent - 2) := by
    rw [value, zpow_sub₀ (by norm_num)]
    push_cast
    ring
  have hbelow : x.below < 4 * x.mantissa := by
    unfold below
    split <;> omega
  have habove : 4 * x.mantissa < x.above := by
    unfold above
    omega
  have hlow := mul_lt_mul_of_pos_right (Nat.cast_lt (α := ℚ).mpr hbelow) hunit
  have hhigh := mul_lt_mul_of_pos_right (Nat.cast_lt (α := ℚ).mpr habove) hunit
  rw [← hvalue] at hlow hhigh
  exact ⟨hlow.le, hhigh.le, fun h => by rcases h with h | h <;> linarith⟩

/-- **The shortest decimal reads back**, whatever is done with ties. -/
theorem rounds_shortest {x : Dyadic} (hpos : 0 < x.mantissa) (tie : Tie) :
    x.Rounds (x.shortest tie).value := by
  unfold shortest
  simp only
  rw [Scaled.value_trim]
  cases hfound : (List.range 17).findSome? fun (n : Nat) =>
      x.onGrid? tie (x.scale - (n + 1 : ℤ)) with
  | none =>
    rw [Option.getD_none, value_exact]
    exact rounds_value hpos
  | some s =>
    obtain ⟨n, -, hn⟩ := List.exists_of_findSome?_eq_some hfound
    exact rounds_of_readsBack (readsBack_onGrid hn)

/-! ## Neighbours -/

/-- The numbers of 64 bits: the mantissa has 53 binary digits unless the exponent is the least one,
and the distance to the number below is smaller only at a power of two. -/
structure Canonical (x : Dyadic) : Prop where
  pos : 0 < x.mantissa
  lt : x.mantissa < 2 ^ 53
  least : -1074 ≤ x.exponent
  normal : x.exponent ≠ -1074 → 2 ^ 52 ≤ x.mantissa
  narrow : x.narrowBelow = true ↔ x.mantissa = 2 ^ 52 ∧ x.exponent ≠ -1074

theorem canonical_of_ofBits {bits : UInt64} {negative : Bool} {x : Dyadic}
    (h : Binary.ofBits bits = .finite negative x) : x.Canonical := by
  have hfraction : bits.toNat % 2 ^ 52 < 2 ^ 52 := Nat.mod_lt _ (by decide)
  unfold Binary.ofBits at h
  simp only [Nat.pow_eq] at h
  split at h
  · split at h <;> cases h
  · split at h
    · split at h
      · cases h
      · rename_i hne
        cases h
        refine ⟨Nat.pos_of_ne_zero hne, by simp only; omega, le_rfl, fun h => absurd rfl h, ?_⟩
        simp
    · rename_i hzero
      cases h
      refine ⟨by simp, by simp only; omega, by simp only; omega, fun _ => by simp, ?_⟩
      simp only [decide_eq_true_eq]
      omega

/-- The order of the numbers of 64 bits. -/
def Precedes (x y : Dyadic) : Prop :=
  x.exponent < y.exponent ∨ x.exponent = y.exponent ∧ x.mantissa < y.mantissa

/-- In units of the lower number, which go `2 ^ k` times into those of the greater one. -/
theorem Precedes.above_le_below_mul {x y : Dyadic} (h : x.Precedes y) (hx : x.Canonical)
    (hy : y.Canonical) {k : Nat} (hk : y.exponent = x.exponent + k) :
    x.above ≤ y.below * 2 ^ k
      ∧ (x.above = y.below * 2 ^ k → ¬ (x.mantissa % 2 = 0 ∧ y.mantissa % 2 = 0)) := by
  have hlt := hx.lt
  unfold above below
  rcases h with h | ⟨heq, hless⟩
  · -- the mantissa of the greater number begins with a one, and it may be the next power of two
    obtain ⟨j, rfl⟩ : ∃ j, k = j + 1 := ⟨k - 1, by omega⟩
    have hleast : y.exponent ≠ -1074 := by
      have := hx.least
      omega
    have hnormal := hy.normal hleast
    have hnarrow := hy.narrow
    have hpow : 1 ≤ 2 ^ j := Nat.one_le_two_pow
    have hmul (n : Nat) : 2 * n ≤ n * 2 ^ (j + 1) := by
      rw [Nat.pow_succ, Nat.mul_comm 2, ← Nat.mul_assoc]
      exact Nat.mul_le_mul_right 2 (Nat.le_mul_of_pos_right n hpow)
    split
    · rename_i hy2
      obtain ⟨hm, -⟩ := hnarrow.mp hy2
      have := hmul (4 * y.mantissa - 1)
      exact ⟨by omega, by omega⟩
    · rename_i hy2
      have hm : y.mantissa ≠ 2 ^ 52 := fun hm => hy2 (hnarrow.mpr ⟨hm, hleast⟩)
      have := hmul (4 * y.mantissa - 2)
      exact ⟨by omega, by omega⟩
  · obtain rfl : k = 0 := by omega
    rw [Nat.pow_zero, Nat.mul_one]
    split
    · exact ⟨by omega, by omega⟩
    · exact ⟨by omega, by omega⟩

/-- The interval of a number ends where that of a greater one begins, or before; and if they have an
end in common, one of the two mantissas is odd. -/
theorem Precedes.above_le_below {x y : Dyadic} (h : x.Precedes y) (hx : x.Canonical)
    (hy : y.Canonical) :
    (x.above * 2 ^ (x.exponent - 2) : ℚ) ≤ y.below * 2 ^ (y.exponent - 2)
      ∧ ((x.above * 2 ^ (x.exponent - 2) : ℚ) = y.below * 2 ^ (y.exponent - 2) →
          ¬ (x.mantissa % 2 = 0 ∧ y.mantissa % 2 = 0)) := by
  have hle : x.exponent ≤ y.exponent := by rcases h with h | ⟨h, -⟩ <;> omega
  obtain ⟨k, hk⟩ := Int.exists_add_of_le hle
  obtain ⟨hless, hends⟩ := h.above_le_below_mul hx hy hk
  have hunit : (0 : ℚ) < 2 ^ (x.exponent - 2) := by positivity
  have hscale : (y.below * 2 ^ (y.exponent - 2) : ℚ)
      = (y.below * 2 ^ k : Nat) * 2 ^ (x.exponent - 2) := by
    rw [hk, show x.exponent + k - 2 = x.exponent - 2 + k by ring, zpow_add₀ (by norm_num),
      zpow_natCast]
    push_cast
    ring
  rw [hscale]
  constructor
  · exact mul_le_mul_of_nonneg_right (Nat.cast_le.mpr hless) hunit.le
  · intro heq
    exact hends (Nat.cast_inj.mp (mul_right_cancel₀ hunit.ne' heq))

/-- No real rounds to two numbers of which one is greater. -/
theorem Precedes.not_rounds {x y : Dyadic} (h : x.Precedes y) (hx : x.Canonical)
    (hy : y.Canonical) {v : ℚ} (hvx : x.Rounds v) : ¬ y.Rounds v := by
  intro hvy
  obtain ⟨hle, hends⟩ := h.above_le_below hx hy
  have hend : v = x.above * 2 ^ (x.exponent - 2) :=
    le_antisymm hvx.above (hle.trans hvy.below)
  have hend' : v = y.below * 2 ^ (y.exponent - 2) :=
    le_antisymm (hend.le.trans hle) hvy.below
  exact hends (hend.symm.trans hend') ⟨hvx.ends (.inr hend), hvy.ends (.inl hend')⟩

/-- **A real rounds to one number only.** -/
theorem eq_of_rounds {x y : Dyadic} (hx : x.Canonical) (hy : y.Canonical) {v : ℚ}
    (hvx : x.Rounds v) (hvy : y.Rounds v) : x = y := by
  have hxy : ¬ x.Precedes y := fun h => h.not_rounds hx hy hvx hvy
  have hyx : ¬ y.Precedes x := fun h => h.not_rounds hy hx hvy hvx
  unfold Precedes at hxy hyx
  have hexponent : x.exponent = y.exponent := by omega
  have hmantissa : x.mantissa = y.mantissa := by omega
  have hnarrow : x.narrowBelow = y.narrowBelow := by
    rw [Bool.eq_iff_iff, hx.narrow, hy.narrow, hexponent, hmantissa]
  cases x
  cases y
  simp only at hexponent hmantissa hnarrow
  rw [hexponent, hmantissa, hnarrow]

/-- **Shortest decimals of different numbers are different.** -/
theorem eq_of_value_shortest_eq {x y : Dyadic} (hx : x.Canonical) (hy : y.Canonical) (tie : Tie)
    (h : (x.shortest tie).value = (y.shortest tie).value) : x = y :=
  eq_of_rounds hx hy (rounds_shortest hx.pos tie) (h ▸ rounds_shortest hy.pos tie)

/-- No number but zero has the decimal zero. -/
theorem value_shortest_pos {x : Dyadic} (hx : x.Canonical) (tie : Tie) :
    0 < (x.shortest tie).value := by
  have hbelow : 0 < x.below := by
    have := hx.pos
    unfold below
    split <;> omega
  have hend : (0 : ℚ) < x.below * 2 ^ (x.exponent - 2) := by positivity
  exact hend.trans_le (rounds_shortest hx.pos tie).below

end Dyadic

end Recurrence.Decimal
