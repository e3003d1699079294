import Recurrence.Proofs.Decimal.Reading

/-!
# Floating-point numbers and their texts

A floating-point number of 64 bits is what its bits stand for; bits that stand for no number are all
alike. The text of a finite one says the sign first. What follows is a decimal that reads back as
one number, so `Layout.UsualSigns.chars_injective`: different numbers have different texts, in every
layout with the usual signs of exponents. A text has a point or an exponent, which no whole number
has.
-/

namespace Recurrence.Decimal

/-! ## Values -/

/-- What 64 bits can stand for. -/
def Binary.Canonical : Binary → Prop
  | .finite _ x => x.Canonical
  | _ => True

/-- A floating-point number of 64 bits. All bits that stand for no number are one of these. -/
abbrev Double := {b : Binary // b.Canonical}

/-- The number that 64 bits stand for. -/
def Double.ofBits (bits : UInt64) : Double :=
  ⟨.ofBits bits, by
    cases h : Binary.ofBits bits with
    | finite negative x => exact Dyadic.canonical_of_ofBits h
    | _ => trivial⟩

/-- The bits of a number, put together again. -/
def Binary.bits : Binary → Nat
  | .nan => 0
  | .infinite negative => negative.toNat * 2 ^ 63 + 2047 * 2 ^ 52
  | .zero negative => negative.toNat * 2 ^ 63
  | .finite negative x =>
    negative.toNat * 2 ^ 63
      + if x.mantissa < 2 ^ 52 then x.mantissa
        else (x.exponent + 1075).toNat * 2 ^ 52 + (x.mantissa - 2 ^ 52)

theorem Binary.bits_ofBits {bits : UInt64} (h : Binary.ofBits bits ≠ .nan) :
    (Binary.ofBits bits).bits = bits.toNat := by
  have hlt : bits.toNat < 2 ^ 64 := bits.toNat_lt
  have hsign : (decide (bits.toNat / 2 ^ 63 = 1)).toNat = bits.toNat / 2 ^ 63 := by
    by_cases hone : bits.toNat / 2 ^ 63 = 1
    · rw [hone]; rfl
    · rw [decide_eq_false hone, Bool.toNat_false]
      omega
  unfold Binary.ofBits at h ⊢
  simp only [Nat.pow_eq] at h ⊢
  split
  case isTrue hspecial =>
    split
    case isTrue hinfinite =>
      simp only [Binary.bits, hsign]
      omega
    case isFalse hpayload =>
      rw [if_pos hspecial, if_neg hpayload] at h
      exact absurd rfl h
  case isFalse hfinite =>
    split
    case isTrue hsmall =>
      split
      case isTrue hzero =>
        simp only [Binary.bits, hsign]
        omega
      case isFalse hne =>
        simp only [Binary.bits, hsign]
        rw [if_pos (by omega)]
        omega
    case isFalse hnormal =>
      simp only [Binary.bits, hsign]
      rw [if_neg (by omega)]
      omega

/-- The value keeps the bits, unless they stand for no number. -/
theorem Double.eq_of_ofBits_eq {a b : UInt64} (h : Double.ofBits a = Double.ofBits b)
    (hnan : (Double.ofBits a).val ≠ .nan) : a = b := by
  have hval : Binary.ofBits a = Binary.ofBits b := congrArg Subtype.val h
  rw [← UInt64.toNat_inj, ← Binary.bits_ofBits hnan, hval, Binary.bits_ofBits (hval ▸ hnan)]

/-! ## Texts of finite numbers -/

def Binary.IsFinite : Binary → Prop
  | .nan | .infinite _ => False
  | .zero _ | .finite _ _ => True

theorem mem_signed {negative : Bool} {cs : List Char} {c : Char}
    (h : c ∈ Layout.signed negative cs) : c = '-' ∨ c ∈ cs := by
  cases negative with
  | false => exact .inr h
  | true => exact List.mem_cons.mp h

theorem mem_signed_of_mem {negative : Bool} {cs : List Char} {c : Char} (h : c ∈ cs) :
    c ∈ Layout.signed negative cs := by
  cases negative with
  | false => exact h
  | true => exact List.mem_cons_of_mem _ h

theorem signed_injective {a b : Bool} {cs ds : List Char} (hcs : cs.head? ≠ some '-')
    (hds : ds.head? ≠ some '-') (h : Layout.signed a cs = Layout.signed b ds) :
    a = b ∧ cs = ds := by
  unfold Layout.signed at h
  cases a <;> cases b
  · exact ⟨rfl, h⟩
  · exact absurd (congrArg List.head? h) hcs
  · exact absurd (congrArg List.head? h.symm) hds
  · exact ⟨rfl, (List.cons.inj h).2⟩

/-- A text without a sign begins with no sign. -/
theorem IsDecimal.head?_ne {l : Layout} {cs : List Char} {v : ℚ} (h : IsDecimal l cs v) :
    cs.head? ≠ some '-' := by
  obtain ⟨digit, rest, rfl, hdigit⟩ := h.exists_cons
  rintro ⟨⟩
  exact absurd hdigit (by decide)

/-- Is there a sign? -/
def Binary.negative : Binary → Bool
  | .nan => false
  | .infinite negative | .zero negative | .finite negative _ => negative

variable {l : Layout}

/-- The value of the decimal that is written behind the sign. -/
def Binary.decimal (l : Layout) : Binary → ℚ
  | .nan | .infinite _ | .zero _ => 0
  | .finite _ x => (x.shortest l.tie).value

theorem Binary.exists_isDecimal {b : Binary} (hb : b.IsFinite) :
    ∃ cs, l.chars b = Layout.signed b.negative cs ∧ IsDecimal l cs (b.decimal l) := by
  cases b with
  | nan | infinite => cases hb
  | zero negative =>
    refine ⟨['0', '.', '0'], rfl, ?_⟩
    have := IsDecimal.point (l := l) (List.cons_ne_nil '0' []) (allDigits_zeros 1)
      (allDigits_zeros 1)
    simpa [Binary.decimal, digitsValue] using this
  | finite negative x => exact ⟨_, rfl, isDecimal_magnitude _⟩

theorem Binary.eq_of_decimal_eq {x y : Binary} (hx : x.Canonical) (hy : y.Canonical)
    (hfinite : x.IsFinite) (hfinite' : y.IsFinite) (hsign : x.negative = y.negative)
    (hdecimal : x.decimal l = y.decimal l) : x = y := by
  cases x with
  | nan | infinite => cases hfinite
  | zero =>
    cases y with
    | nan | infinite => cases hfinite'
    | zero => exact congrArg Binary.zero hsign
    | finite => exact absurd hdecimal (Dyadic.value_shortest_pos hy l.tie).ne
  | finite =>
    cases y with
    | nan | infinite => cases hfinite'
    | zero => exact absurd hdecimal.symm (Dyadic.value_shortest_pos hx l.tie).ne
    | finite => exact congrArg₂ Binary.finite hsign (Dyadic.eq_of_value_shortest_eq hx hy _ hdecimal)

namespace Layout.UsualSigns

variable (hl : l.UsualSigns)
include hl

/-- **Different finite numbers have different texts.** -/
theorem chars_injective {x y : Double} (hx : x.val.IsFinite) (hy : y.val.IsFinite)
    (h : l.chars x.val = l.chars y.val) : x = y := by
  obtain ⟨cs, hcs, hdecimal⟩ := Binary.exists_isDecimal (l := l) hx
  obtain ⟨ds, hds, hdecimal'⟩ := Binary.exists_isDecimal (l := l) hy
  rw [hcs, hds] at h
  obtain ⟨hsign, rfl⟩ := signed_injective hdecimal.head?_ne hdecimal'.head?_ne h
  exact Subtype.ext (Binary.eq_of_decimal_eq x.property y.property hx hy hsign
    (hdecimal.unique hl hdecimal'))

theorem mem_chars {b : Binary} (hb : b.IsFinite) {c : Char} (hc : c ∈ l.chars b) :
    c.isDigit = true ∨ c ∈ ['.', 'e', '+', '-'] := by
  obtain ⟨cs, hcs, hdecimal⟩ := Binary.exists_isDecimal (l := l) hb
  rw [hcs] at hc
  rcases mem_signed hc with rfl | hc
  · exact .inr (by decide)
  · exact hdecimal.mem hl hc

end Layout.UsualSigns

/-- A floating-point number is not written like a whole number. -/
theorem Binary.exists_mark {b : Binary} (hb : b.IsFinite) : '.' ∈ l.chars b ∨ 'e' ∈ l.chars b := by
  obtain ⟨cs, hcs, hdecimal⟩ := Binary.exists_isDecimal (l := l) hb
  rw [hcs]
  exact hdecimal.exists_mark.imp mem_signed_of_mem mem_signed_of_mem

end Recurrence.Decimal
