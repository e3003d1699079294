import Recurrence.Proofs.Decimal.Double

/-!
# The narrow format lies in the wide one

A number of 32 bits is decoded here on its own, from eight bits of exponent and 23 bits of fraction.
Widened, it is the number of 64 bits with the same sign and the same value (`widen_value`): no two
different numbers of the narrow format become one.
-/

namespace Recurrence.Decimal

/-- What a number may be, apart from its sign. -/
inductive Size where
  | nan
  | infinite
  | number (v : ℚ)

/-- What 64 bits stand for, apart from the sign. -/
def Binary.magnitude : Binary → Size
  | .nan => .nan
  | .infinite _ => .infinite
  | .zero _ => .number 0
  | .finite _ x => .number x.value

/-- What 32 bits stand for, apart from the sign. -/
def narrowMagnitude (bits : UInt32) : Size :=
  let exponent : Nat := bits.toNat / 2 ^ 23 % 2 ^ 8
  let fraction : Nat := bits.toNat % 2 ^ 23
  if exponent = 255 then if fraction = 0 then .infinite else .nan
  else if exponent = 0 then .number (fraction * 2 ^ (-149 : ℤ))
  else .number ((2 ^ 23 + fraction : ℕ) * 2 ^ (exponent - 150 : ℤ))

/-- The bits of a sign, an exponent and a fraction. -/
def wideBits (sign exponent fraction : Nat) : UInt64 :=
  .ofNat (sign * 2 ^ 63 + (exponent * 2 ^ 52 + fraction))

section Fields

variable {sign exponent fraction : Nat}

theorem toNat_wideBits (hs : sign < 2) (he : exponent < 2048) (hf : fraction < 2 ^ 52) :
    (wideBits sign exponent fraction).toNat = sign * 2 ^ 63 + (exponent * 2 ^ 52 + fraction) := by
  rw [wideBits, UInt64.toNat_ofNat']
  exact Nat.mod_eq_of_lt (by omega)

theorem ofBits_wideBits (hs : sign < 2) (he : exponent < 2048) (hf : fraction < 2 ^ 52) :
    Binary.ofBits (wideBits sign exponent fraction)
      = if exponent = 2047 then if fraction = 0 then .infinite (sign = 1) else .nan
        else if exponent = 0 then
          if fraction = 0 then .zero (sign = 1) else .finite (sign = 1) ⟨fraction, -1074, false⟩
        else .finite (sign = 1)
          ⟨2 ^ 52 + fraction, exponent - 1075, fraction = 0 ∧ 1 < exponent⟩ := by
  have hsign : (wideBits sign exponent fraction).toNat / 2 ^ 63 = sign := by
    rw [toNat_wideBits hs he hf]
    omega
  have hexponent : (wideBits sign exponent fraction).toNat / 2 ^ 52 % 2 ^ 11 = exponent := by
    rw [toNat_wideBits hs he hf]
    omega
  have hfraction : (wideBits sign exponent fraction).toNat % 2 ^ 52 = fraction := by
    rw [toNat_wideBits hs he hf]
    omega
  unfold Binary.ofBits
  simp only [Nat.pow_eq, hsign, hexponent, hfraction]

/-- An exponent that is neither the least nor the greatest. -/
theorem ofBits_wideBits_normal (hs : sign < 2) (h0 : 0 < exponent) (he : exponent < 2047)
    (hf : fraction < 2 ^ 52) :
    (Binary.ofBits (wideBits sign exponent fraction)).negative = (sign = 1 : Bool)
      ∧ (Binary.ofBits (wideBits sign exponent fraction)).magnitude
        = .number ((2 ^ 52 + fraction : ℕ) * 2 ^ (exponent - 1075 : ℤ)) := by
  rw [ofBits_wideBits hs (by omega) hf, if_neg (by omega), if_neg (by omega)]
  exact ⟨rfl, rfl⟩

end Fields

/-- A number below the normal range has its leading one moved to the front. -/
theorem subnormal_bounds {fraction : Nat} (hpos : fraction ≠ 0) (hlt : fraction < 2 ^ 23) :
    Nat.log2 fraction ≤ 22 ∧ 2 ^ 52 ≤ fraction * 2 ^ (52 - Nat.log2 fraction)
      ∧ fraction * 2 ^ (52 - Nat.log2 fraction) < 2 ^ 53 := by
  have htop : Nat.log2 fraction < 23 := (Nat.log2_lt hpos).mpr hlt
  have hlow : 2 ^ Nat.log2 fraction ≤ fraction := Nat.log2_self_le hpos
  have hhigh : fraction < 2 ^ (Nat.log2 fraction + 1) := Nat.lt_log2_self
  generalize Nat.log2 fraction = top at *
  have hscale : 0 < 2 ^ (52 - top) := Nat.two_pow_pos _
  have hsplit : 2 ^ top * 2 ^ (52 - top) = 2 ^ 52 := by
    rw [← Nat.pow_add, Nat.add_sub_cancel' (by omega)]
  refine ⟨by omega, ?_, ?_⟩
  · exact hsplit ▸ Nat.mul_le_mul_right _ hlow
  · calc fraction * 2 ^ (52 - top) < 2 ^ (top + 1) * 2 ^ (52 - top) :=
          Nat.mul_lt_mul_of_pos_right hhigh hscale
      _ = 2 ^ 53 := by rw [Nat.pow_succ, Nat.mul_right_comm, hsplit]; rfl

/-- Powers of two go from the mantissa into the exponent. -/
theorem natCast_mul_zpow (m : Nat) {k : Nat} {e e' : ℤ} (h : k + e = e') :
    ((m * 2 ^ k : ℕ) : ℚ) * 2 ^ e = m * 2 ^ e' := by
  rw [← h, zpow_add₀ (by norm_num), zpow_natCast]
  push_cast
  ring

/-- **A widened number has the same sign and the same value.** -/
theorem widen_value (bits : UInt32) :
    (Binary.ofBits (widen bits)).magnitude = narrowMagnitude bits
      ∧ (narrowMagnitude bits ≠ .nan →
          ((Binary.ofBits (widen bits)).negative = true ↔ 2 ^ 31 ≤ bits.toNat)) := by
  have hlt : bits.toNat < 2 ^ 32 := bits.toNat_lt
  unfold widen narrowMagnitude
  simp only [Nat.pow_eq]
  have hfraction : bits.toNat % 2 ^ 23 < 2 ^ 23 := Nat.mod_lt _ (by decide)
  have hexponent : bits.toNat / 2 ^ 23 % 2 ^ 8 < 2 ^ 8 := Nat.mod_lt _ (by decide)
  have hsign : bits.toNat / 2 ^ 31 < 2 := by omega
  have hnegative : bits.toNat / 2 ^ 31 = 1 ↔ 2 ^ 31 ≤ bits.toNat := by omega
  rw [← hnegative]
  generalize bits.toNat / 2 ^ 31 = sign at *
  generalize bits.toNat / 2 ^ 23 % 2 ^ 8 = exponent at *
  generalize bits.toNat % 2 ^ 23 = fraction at *
  by_cases hspecial : exponent = 255
  · -- infinity, and what is no number
    rw [if_pos hspecial, if_pos hspecial]
    have hbits := ofBits_wideBits hsign (by decide : 2047 < 2048)
      (by omega : fraction * 2 ^ 29 < 2 ^ 52)
    rw [if_pos rfl, wideBits] at hbits
    rw [hbits]
    by_cases hzero : fraction = 0
    · rw [if_pos hzero, if_pos (by omega)]
      exact ⟨rfl, fun _ => decide_eq_true_iff⟩
    · rw [if_neg hzero, if_neg (by omega)]
      exact ⟨rfl, fun hne => absurd rfl hne⟩
  rw [if_neg hspecial, if_neg hspecial]
  by_cases hsmall : exponent = 0
  · rw [if_pos hsmall, if_pos hsmall]
    by_cases hzero : fraction = 0
    · have hbits := ofBits_wideBits hsign (by decide : 0 < 2048) (by decide : 0 < 2 ^ 52)
      rw [if_neg (by decide), if_pos rfl, if_pos rfl, wideBits, Nat.zero_mul, Nat.zero_add] at hbits
      rw [if_pos hzero, hbits, hzero]
      refine ⟨?_, fun _ => decide_eq_true_iff⟩
      simp [Binary.magnitude]
    · -- below the normal range of the narrow format, and inside that of the wide one
      obtain ⟨htop, hlow, hhigh⟩ := subnormal_bounds hzero hfraction
      obtain ⟨hneg, hmag⟩ := ofBits_wideBits_normal hsign
        (by omega : 0 < Nat.log2 fraction + 874) (by omega)
        (by omega : fraction * 2 ^ (52 - Nat.log2 fraction) - 2 ^ 52 < 2 ^ 52)
      rw [wideBits] at hneg hmag
      rw [if_neg hzero, hneg, hmag, Nat.add_sub_cancel' hlow]
      refine ⟨?_, fun _ => decide_eq_true_iff⟩
      exact congrArg Size.number (natCast_mul_zpow fraction (by omega))
  · rw [if_neg hsmall, if_neg hsmall]
    obtain ⟨hneg, hmag⟩ := ofBits_wideBits_normal hsign (by omega : 0 < exponent + 896)
      (by omega) (by omega : fraction * 2 ^ 29 < 2 ^ 52)
    rw [wideBits] at hneg hmag
    rw [hneg, hmag]
    refine ⟨?_, fun _ => decide_eq_true_iff⟩
    rw [show 2 ^ 52 + fraction * 2 ^ 29 = (2 ^ 23 + fraction) * 2 ^ 29 by omega]
    exact congrArg Size.number (natCast_mul_zpow (2 ^ 23 + fraction) (by omega))

end Recurrence.Decimal
