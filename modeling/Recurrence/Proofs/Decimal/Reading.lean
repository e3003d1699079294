import Mathlib.Data.List.Basic
import Recurrence.Decimal.Layout
import Recurrence.Proofs.Decimal.Rounding

/-!
# Texts of numbers

Whole numbers are written with digits and a sign. A number with a point or an exponent in its text
is a floating-point number, and one text denotes one such number: `IsDecimal` says what the text
looks like and what it denotes, and `IsDecimal.unique` that it cannot be read in two ways. Since a
shortest decimal reads back, texts of different numbers are different.
-/

namespace Recurrence

/-! ## Digits -/

/-- The number that characters denote as digits. -/
def digitsValue (cs : List Char) : Nat := cs.foldl (fun v c => 10 * v + (c.toNat - 48)) 0

/-- There are only digits. -/
def AllDigits (cs : List Char) : Prop := ∀ c ∈ cs, c.isDigit = true

theorem digitsValue_append_singleton (cs : List Char) (c : Char) :
    digitsValue (cs ++ [c]) = 10 * digitsValue cs + (c.toNat - 48) := by
  simp [digitsValue]

theorem digitsValue_append (cs ds : List Char) :
    digitsValue (cs ++ ds) = digitsValue cs * 10 ^ ds.length + digitsValue ds := by
  induction ds using List.reverseRecOn with
  | nil => simp [digitsValue]
  | append_singleton ds c ih =>
    rw [← List.append_assoc, digitsValue_append_singleton, ih, digitsValue_append_singleton,
      List.length_append, List.length_singleton, Nat.pow_succ]
    ring

theorem digitsValue_zeros (k : Nat) : digitsValue (List.replicate k '0') = 0 := by
  induction k with
  | zero => rfl
  | succ k ih => rw [List.replicate_succ', digitsValue_append_singleton, ih]; rfl

theorem digitsValue_chars (ds : List Digit) : digitsValue (Digits.chars ds) = Digits.value ds := by
  have hdigit : ∀ d : Digit, d.char.toNat - 48 = d.val := by decide
  simp only [digitsValue, Digits.chars, Digits.value, List.foldl_map, hdigit]

theorem digitsValue_natChars (n : Nat) : digitsValue (natChars n) = n := by
  rw [natChars, digitsValue_chars, Digits.value_ofNat]

theorem natChars_injective : Function.Injective natChars := by
  intro m n h
  rw [← digitsValue_natChars m, h, digitsValue_natChars]

/-- Digits with no zero in front of others are those of the number that they denote. -/
theorem ofNat_digitsValue {ds : List Digit} (hne : ds ≠ []) (hzero : ds.head? = some 0 → ds = [0]) :
    Digits.ofNat (Digits.value ds) = ds := by
  induction ds using List.reverseRecOn with
  | nil => exact absurd rfl hne
  | append_singleton ds d ih =>
    rw [Digits.value_append_singleton, Digits.ofNat]
    by_cases hds : ds = []
    · subst hds
      have hdigit : Digit.ofNat d.val = d := Fin.ext (Nat.mod_eq_of_lt d.isLt)
      simp [Digits.value, hdigit]
    · have hhead : ds.head? ≠ some 0 := by
        intro h
        have hone := hzero (by rw [List.head?_append, h]; rfl)
        rcases List.append_eq_singleton_iff.mp hone with ⟨hnil, -⟩ | ⟨-, hnil⟩
        · exact hds hnil
        · cases hnil
      have hsame : Digits.ofNat (Digits.value ds) = ds := ih hds fun h => absurd h hhead
      have hpos : Digits.value ds ≠ 0 := by
        intro h
        rw [h] at hsame
        rw [← hsame, Digits.ofNat] at hhead
        exact hhead rfl
      have hfront : (10 * Digits.value ds + d.val) / 10 = Digits.value ds := by omega
      have hlast : Digit.ofNat (10 * Digits.value ds + d.val) = d :=
        Fin.ext (by simp [Digit.ofNat, Nat.mod_eq_of_lt d.isLt])
      rw [if_neg (by omega), hfront, hlast, hsame]

theorem allDigits_chars (ds : List Digit) : AllDigits (Digits.chars ds) := by
  have hdigit : ∀ d : Digit, d.char.isDigit = true := by decide
  intro c hc
  obtain ⟨d, -, rfl⟩ := List.mem_map.mp hc
  exact hdigit d

theorem allDigits_natChars (n : Nat) : AllDigits (natChars n) := allDigits_chars _

theorem natChars_ne_nil (n : Nat) : natChars n ≠ [] := by
  unfold natChars Digits.chars Digits.ofNat
  split <;> simp

theorem AllDigits.append {cs ds : List Char} (hcs : AllDigits cs) (hds : AllDigits ds) :
    AllDigits (cs ++ ds) := by
  intro c hc
  rcases List.mem_append.mp hc with hc | hc
  · exact hcs c hc
  · exact hds c hc

theorem AllDigits.sublist {cs ds : List Char} (hds : AllDigits ds) (h : cs.Sublist ds) :
    AllDigits cs :=
  fun c hc => hds c (h.subset hc)

theorem allDigits_zeros (k : Nat) : AllDigits (List.replicate k '0') := by
  intro c hc
  rw [List.eq_of_mem_replicate hc]
  rfl

/-- A character that is no digit does not stand among digits. -/
theorem AllDigits.notMem {cs : List Char} (h : AllDigits cs) {c : Char} (hc : c.isDigit = false) :
    c ∉ cs := by
  intro hmem
  rw [h c hmem] at hc
  cases hc

/-! ## Whole numbers -/

theorem intChars_injective : Function.Injective intChars := by
  -- a minus sign is no digit
  have hsign (m n : Nat) : natChars m ≠ '-' :: natChars n := by
    intro h
    exact (allDigits_natChars m).notMem (c := '-') (by decide) (h ▸ List.mem_cons_self)
  intro a b h
  cases a <;> cases b <;> simp only [intChars] at h
  · rw [natChars_injective h]
  · exact absurd h (hsign _ _)
  · exact absurd h.symm (hsign _ _)
  · have := natChars_injective (List.cons.inj h).2
    rw [Nat.add_right_cancel this]

/-- Digits, and a sign. -/
theorem mem_intChars {n : Int} {c : Char} (h : c ∈ intChars n) : c.isDigit = true ∨ c = '-' := by
  cases n with
  | ofNat n => exact .inl (allDigits_natChars n c h)
  | negSucc n =>
    rcases List.mem_cons.mp h with rfl | h
    · exact .inr rfl
    · exact .inl (allDigits_natChars (n + 1) c h)

theorem intChars_ne_nil (n : Int) : intChars n ≠ [] := by
  cases n with
  | ofNat n => exact natChars_ne_nil n
  | negSucc n => exact List.cons_ne_nil _ _

namespace Decimal

/-! ## Floating-point numbers -/

/-- Exponents have the usual signs. -/
def Layout.UsualSigns (l : Layout) : Prop := l.plusSign = [] ∨ l.plusSign = ['+']

/-- An exponent with its sign. -/
def Layout.exponentChars (l : Layout) (e : ℤ) : List Char :=
  (if e < 0 then [] else l.plusSign) ++ intChars e

theorem Layout.UsualSigns.exponentChars_injective {l : Layout} (hl : l.UsualSigns) :
    Function.Injective l.exponentChars := by
  intro a b h
  unfold exponentChars at h
  rcases hl with hplus | hplus <;> rw [hplus] at h
  · rw [ite_self, ite_self] at h
    exact intChars_injective h
  split at h <;> split at h
  · exact intChars_injective h
  · rename_i ha hb
    obtain ⟨n, rfl⟩ := Int.eq_negSucc_of_lt_zero ha
    simp [intChars] at h
  · rename_i ha hb
    obtain ⟨n, rfl⟩ := Int.eq_negSucc_of_lt_zero hb
    simp [intChars] at h
  · exact intChars_injective (List.cons.inj h).2

theorem Layout.UsualSigns.mem_exponentChars {l : Layout} (hl : l.UsualSigns) {e : ℤ} {c : Char}
    (h : c ∈ l.exponentChars e) : c.isDigit = true ∨ c = '-' ∨ c = '+' := by
  unfold exponentChars at h
  rcases List.mem_append.mp h with h | h
  · rcases hl with hplus | hplus <;> split at h <;> simp_all
  · rcases mem_intChars h with h | h <;> simp [h]

/-- A fraction behind its point, if there is one. -/
def pointed (fraction : List Char) : List Char := if fraction = [] then [] else '.' :: fraction

theorem mem_pointed {fraction : List Char} {c : Char} (h : c ∈ pointed fraction) :
    c = '.' ∨ c ∈ fraction := by
  unfold pointed at h
  split at h
  · cases h
  · exact List.mem_cons.mp h

theorem pointed_injective : Function.Injective pointed := by
  intro a b h
  unfold pointed at h
  split at h <;> split at h <;> simp_all

/-- The texts of numbers without a sign, and what they denote. -/
inductive IsDecimal (l : Layout) : List Char → ℚ → Prop
  | point {whole fraction : List Char} : whole ≠ [] → AllDigits whole → AllDigits fraction →
      IsDecimal l (whole ++ '.' :: fraction) (digitsValue (whole ++ fraction) / 10 ^ fraction.length)
  | power {digit : Char} {fraction : List Char} {e : ℤ} : AllDigits (digit :: fraction) →
      IsDecimal l (digit :: pointed fraction ++ 'e' :: l.exponentChars e)
        (digitsValue (digit :: fraction) / 10 ^ fraction.length * 10 ^ e)

variable {l : Layout}

/-- **A text denotes one number.** -/
theorem IsDecimal.unique (hl : l.UsualSigns) {cs : List Char} {v w : ℚ} (hv : IsDecimal l cs v)
    (hw : IsDecimal l cs w) : v = w := by
  -- only a text with a power of ten has the letter, and it has the letter once
  have hpoint {whole fraction : List Char} (hwhole : AllDigits whole)
      (hfraction : AllDigits fraction) : 'e' ∉ whole ++ '.' :: fraction := by
    rw [List.mem_append, List.mem_cons]
    rintro (h | h | h)
    · exact hwhole.notMem (by decide) h
    · exact absurd h (by decide)
    · exact hfraction.notMem (by decide) h
  have hhead {digit : Char} {fraction : List Char} (h : AllDigits (digit :: fraction)) :
      'e' ∉ digit :: pointed fraction := by
    have hne : 'e' ∉ digit :: fraction := h.notMem (by decide)
    rw [List.mem_cons, not_or] at hne ⊢
    refine ⟨hne.1, fun hmem => ?_⟩
    rcases mem_pointed hmem with heq | hmem
    · exact absurd heq (by decide)
    · exact hne.2 hmem
  cases hv with
  | @point whole fraction hne hwhole hfraction =>
    generalize htext : whole ++ '.' :: fraction = cs at hw
    cases hw with
    | @point whole' fraction' hne' hwhole' hfraction' =>
      obtain ⟨rfl, -, rfl⟩ := (List.append_cons_inj_of_notMem (hwhole.notMem (by decide))
        (hfraction.notMem (by decide))).mp htext
      rfl
    | power h' =>
      exact absurd (htext ▸ List.mem_append_right _ List.mem_cons_self) (hpoint hwhole hfraction)
  | @power digit fraction e h =>
    generalize htext : digit :: pointed fraction ++ 'e' :: l.exponentChars e = cs at hw
    cases hw with
    | point hne' hwhole' hfraction' =>
      exact absurd (htext ▸ List.mem_append_right _ List.mem_cons_self) (hpoint hwhole' hfraction')
    | @power digit' fraction' e' h' =>
      have hexp : 'e' ∉ l.exponentChars e := fun hmem =>
        absurd (hl.mem_exponentChars hmem) (by decide)
      obtain ⟨hdigits, -, hexponent⟩ :=
        (List.append_cons_inj_of_notMem (hhead h) hexp).mp htext
      obtain ⟨rfl, hfraction⟩ := List.cons.inj hdigits
      rw [pointed_injective hfraction, hl.exponentChars_injective hexponent]

/-! ## The text of a number -/

/-- A decimal from its digits with `p` zeros behind, and a point in front of the last `f`. -/
theorem Scaled.value_eq_div {s : Scaled} {p f : Nat} (h : s.exponent = p - f) :
    ((s.digits * 10 ^ p : Nat) : ℚ) / 10 ^ f = s.value := by
  rw [Scaled.value, h, zpow_sub₀ (by norm_num), zpow_natCast, zpow_natCast]
  push_cast
  ring

/-- A point among the digits, or zeros up to it. -/
theorem isDecimal_positional (s : Scaled) :
    IsDecimal l
      (Layout.positional (natChars s.digits) (s.exponent + (natChars s.digits).length - 1))
      s.value := by
  have hdigits := allDigits_natChars s.digits
  have hvalue := digitsValue_natChars s.digits
  have hlength := List.length_pos_iff.mpr (natChars_ne_nil s.digits)
  generalize natChars s.digits = ds at *
  generalize hleading : s.exponent + ds.length - 1 = leading
  unfold Layout.positional
  split
  case isTrue h =>
    -- zeros between the point and the digits
    generalize hz : (-leading).toNat - 1 = z
    have hsame : digitsValue (['0'] ++ (List.replicate z '0' ++ ds)) = s.digits * 10 ^ 0 := by
      rw [digitsValue_append, digitsValue_append, digitsValue_zeros, hvalue]
      simp [digitsValue]
    have hpoint : s.exponent = (0 : Nat) - (List.replicate z '0' ++ ds).length := by
      simp
      omega
    rw [← Scaled.value_eq_div hpoint, ← hsame]
    exact .point (List.cons_ne_nil _ _) (allDigits_zeros 1) ((allDigits_zeros z).append hdigits)
  case isFalse h =>
    simp only
    generalize hwhole : leading.toNat + 1 = whole
    split
    case isTrue hle =>
      -- zeros between the digits and the point
      generalize hz : whole - ds.length = z
      have hsame : digitsValue (ds ++ List.replicate z '0' ++ ['0']) = s.digits * 10 ^ (z + 1) := by
        rw [digitsValue_append_singleton, digitsValue_append, digitsValue_zeros, hvalue,
          List.length_replicate, Nat.pow_succ, ← Nat.mul_assoc, Nat.mul_comm 10]
        rfl
      have hpoint : s.exponent = (z + 1 : Nat) - (['0'].length : Nat) := by
        rw [List.length_singleton]
        omega
      rw [← Scaled.value_eq_div hpoint, ← hsame]
      exact .point (List.append_ne_nil_of_left_ne_nil (List.length_pos_iff.mp hlength) _)
        (hdigits.append (allDigits_zeros z)) (allDigits_zeros 1)
    case isFalse hgt =>
      -- the point between two digits
      have hsame : digitsValue (ds.take whole ++ ds.drop whole) = s.digits * 10 ^ 0 := by
        rw [List.take_append_drop, hvalue, Nat.pow_zero, Nat.mul_one]
      have hpoint : s.exponent = (0 : Nat) - (ds.drop whole).length := by
        rw [List.length_drop]
        omega
      rw [← Scaled.value_eq_div hpoint, ← hsame]
      refine .point ?_ (hdigits.sublist (List.take_sublist _ _))
        (hdigits.sublist (List.drop_sublist _ _))
      rw [ne_eq, List.take_eq_nil_iff]
      rintro (hzero | rfl)
      · omega
      · exact absurd hlength (by simp)

/-- The first digit, the others behind a point, and the power of ten. -/
theorem isDecimal_scientific (s : Scaled) :
    IsDecimal l
      (l.scientific (natChars s.digits) (s.exponent + (natChars s.digits).length - 1))
      s.value := by
  have hdigits := allDigits_natChars s.digits
  have hvalue := digitsValue_natChars s.digits
  have hne := natChars_ne_nil s.digits
  generalize natChars s.digits = ds at *
  obtain ⟨digit, fraction, rfl⟩ := List.exists_cons_of_ne_nil hne
  have htext (e : ℤ) : l.scientific (digit :: fraction) e
      = digit :: pointed fraction ++ 'e' :: l.exponentChars e := by
    unfold Layout.scientific pointed Layout.exponentChars
    cases fraction <;> simp
  have hpower : s.value = digitsValue (digit :: fraction) / 10 ^ fraction.length
      * 10 ^ (s.exponent + (digit :: fraction).length - 1) := by
    rw [hvalue, Scaled.value, List.length_cons,
      show s.exponent + (fraction.length + 1 : Nat) - 1 = s.exponent + fraction.length by
        push_cast; ring,
      zpow_add₀ (by norm_num), zpow_natCast]
    field_simp
  rw [htext, hpower]
  exact .power hdigits

/-- **The text of a decimal denotes it.** -/
theorem isDecimal_magnitude (s : Scaled) : IsDecimal l (l.magnitude s) s.value := by
  unfold Layout.magnitude
  simp only
  split
  · exact isDecimal_positional s
  · exact isDecimal_scientific s

/-! ## Characters -/

/-- A text of a number without sign begins with a digit. -/
theorem IsDecimal.exists_cons {cs : List Char} {v : ℚ} (h : IsDecimal l cs v) :
    ∃ digit rest, cs = digit :: rest ∧ digit.isDigit = true := by
  cases h with
  | point hne hwhole =>
    obtain ⟨digit, rest, rfl⟩ := List.exists_cons_of_ne_nil hne
    exact ⟨digit, _, rfl, hwhole digit List.mem_cons_self⟩
  | power h => exact ⟨_, _, rfl, h _ List.mem_cons_self⟩

/-- A text of a floating-point number is not the text of a whole number. -/
theorem IsDecimal.exists_mark {cs : List Char} {v : ℚ} (h : IsDecimal l cs v) :
    '.' ∈ cs ∨ 'e' ∈ cs := by
  cases h with
  | point => exact .inl (List.mem_append_right _ List.mem_cons_self)
  | power => exact .inr (List.mem_append_right _ List.mem_cons_self)

theorem IsDecimal.mem (hl : l.UsualSigns) {cs : List Char} {v : ℚ} (h : IsDecimal l cs v) {c : Char}
    (hc : c ∈ cs) : c.isDigit = true ∨ c ∈ ['.', 'e', '+', '-'] := by
  cases h with
  | point hne hwhole hfraction =>
    rw [List.mem_append, List.mem_cons] at hc
    rcases hc with hc | rfl | hc
    · exact .inl (hwhole c hc)
    · exact .inr (by decide)
    · exact .inl (hfraction c hc)
  | power h =>
    rw [List.cons_append, List.mem_cons, List.mem_append, List.mem_cons] at hc
    rcases hc with rfl | hc | rfl | hc
    · exact .inl (h _ List.mem_cons_self)
    · rcases mem_pointed hc with rfl | hc
      · exact .inr (by decide)
      · exact .inl (h c (List.mem_cons_of_mem _ hc))
    · exact .inr (by decide)
    · rcases hl.mem_exponentChars hc with hc | rfl | rfl
      · exact .inl hc
      · exact .inr (by decide)
      · exact .inr (by decide)

end Decimal

end Recurrence
