import Recurrence.Proofs.Expansion.Exact
import Recurrence.Proofs.Expansion.Grammar

/-!
# Writing and reading expansions

Reading undoes writing. Writing undoes reading up to zeros in front of the integer part, which are
the only thing that the reader takes and the writer does not write: a numeral without them is the
one that is written for its value (`ofNat_digitsValue`).
-/

namespace Recurrence

namespace Expansion

/-! ## Zeros in front -/

/-- Drops every zero in front of another digit. -/
def dropZeros : List Char → List Char
  | '0' :: c :: cs => if c.isDigit then dropZeros (c :: cs) else '0' :: c :: cs
  | cs => cs

/-- Drops the redundant zeros of the integer part, behind the sign. -/
def withoutLeadingZeros : List Char → List Char
  | '-' :: cs => '-' :: dropZeros cs
  | cs => dropZeros cs

theorem dropZeros_eq_self {c : Char} {cs : List Char}
    (h : c = '0' → ∀ d ∈ cs.head?, d.isDigit = false) : dropZeros (c :: cs) = c :: cs := by
  unfold dropZeros
  split
  · rename_i d ds heq
    obtain ⟨rfl, rfl⟩ := List.cons.inj heq
    rw [if_neg (by simpa using h rfl d rfl)]
  · rfl

/-- There is no sign in front. -/
theorem withoutLeadingZeros_cons {c : Char} (h : c ≠ '-') (cs : List Char) :
    withoutLeadingZeros (c :: cs) = dropZeros (c :: cs) := by
  unfold withoutLeadingZeros
  split
  · rename_i heq
    exact absurd (List.cons.inj heq).1 h
  · rfl

/-- What is left of a numeral is what is written for its value. -/
theorem dropZeros_chars {ds : List Digit} {rest : List Char} (hne : ds ≠ [])
    (hrest : ∀ c ∈ rest.head?, c.isDigit = false) :
    dropZeros (Digits.chars ds ++ rest) = natChars (Digits.value ds) ++ rest := by
  have hdigit : ∀ d : Digit, d.char.isDigit = true := by decide
  have hchar : ∀ d : Digit, d.char = '0' → d = 0 := by decide
  induction ds with
  | nil => exact absurd rfl hne
  | cons d ds ih =>
    by_cases hredundant : d = 0 ∧ ds ≠ []
    · obtain ⟨rfl, hds⟩ := hredundant
      have hvalue : Digits.value (0 :: ds) = Digits.value ds := rfl
      rw [hvalue, ← ih hds]
      cases ds with
      | nil => exact absurd rfl hds
      | cons e ds => exact if_pos (hdigit e)
    · have hsame : natChars (Digits.value (d :: ds)) = Digits.chars (d :: ds) := by
        rw [natChars, ofNat_digitsValue (List.cons_ne_nil d ds)]
        intro hhead
        obtain rfl := Option.some.inj hhead
        rw [not_and_not_right.mp hredundant rfl]
      rw [hsame]
      refine dropZeros_eq_self fun hzero => ?_
      have hds : ds = [] := not_and_not_right.mp hredundant (hchar d hzero)
      rw [hds]
      exact hrest

/-! ## Ways to write an expansion -/

/-- What is written for an expansion is a way to write it. -/
theorem spells_chars {e : Expansion} (h : e.integerPart ≤ maxInteger) : Spells e.chars e := by
  refine spells_iff.mpr ⟨natChars e.integerPart, List.append_assoc _ _ _, ?_⟩
  have hnumeral : Numeral (natChars e.integerPart) :=
    ⟨natChars_ne_nil _, allDigits_natChars _⟩
  have hvalue : digitsValue (natChars e.integerPart) = e.integerPart := digitsValue_natChars _
  exact readInteger_eq_ok_iff.mpr ⟨hnumeral, hvalue.symm ▸ h, hvalue.symm⟩

/-- All ways to write an expansion are the same without leading zeros. -/
theorem Spells.chars_eq {text : List Char} {e : Expansion} (h : Spells text e) :
    e.chars = withoutLeadingZeros text := by
  obtain ⟨number, rfl, hinteger⟩ := spells_iff.mp h
  obtain ⟨hnumeral, -, hvalue⟩ := readInteger_eq_ok_iff.mp hinteger
  obtain ⟨ds, hds, rfl⟩ := hnumeral.exists_chars
  have hpoint : ∀ c ∈ (fractionChars e.preperiod e.period).head?, c.isDigit = false := by
    rcases fractionChars_shape e.preperiod e.period with ⟨hlead, hperiod⟩ | ⟨rest, hrest⟩
    · rw [hlead, hperiod]
      exact nofun
    · rw [hrest]
      rintro c ⟨⟩
      rfl
  have hdrop := dropZeros_chars hds hpoint
  rw [← digitsValue_chars, ← hvalue] at hdrop
  unfold chars
  cases e.negative with
  | true => exact congrArg ('-' :: ·) hdrop.symm
  | false =>
    -- a digit stands in front
    have hsign : '-' ∉ Digits.chars ds := (allDigits_chars ds).notMem rfl
    obtain ⟨c, cs, hcs⟩ := List.exists_cons_of_ne_nil hnumeral.ne_nil
    rw [hcs] at hdrop hsign ⊢
    have hc : c ≠ '-' := fun heq => hsign (heq ▸ List.mem_cons_self)
    have hunsigned := withoutLeadingZeros_cons hc (cs ++ fractionChars e.preperiod e.period)
    exact (hunsigned.trans hdrop).symm

theorem Spells.integerPart_le {text : List Char} {e : Expansion} (h : Spells text e) :
    e.integerPart ≤ maxInteger := by
  obtain ⟨_, _, -, -, hle, hvalue, -⟩ := h
  exact hvalue ▸ hle

/-! ## Quotients of words -/

/-- Whether a division may repeat or not, the integer part of its result is the whole quotient. -/
theorem integerPart_ofFraction {mode : Detector.Mode} {n d : Int} {e : Expansion}
    (h : ofFraction mode n d = .ok e) : e.integerPart = n.natAbs / d.natAbs := by
  unfold ofFraction at h
  split at h
  · cases h
  · dsimp only at h
    split at h
    · cases h
      exact integerPart_ofDigits _ _ _ _
    · cases h
      exact integerPart_ofDigits _ _ _ _
    · cases h
    · cases h

/-- The whole quotient of words is a word. -/
theorem natAbs_div_le_maxInteger (n : Int64) (d : Int) :
    n.toInt.natAbs / d.natAbs ≤ maxInteger := by
  have hbounds : n.toInt.natAbs ≤ 2 ^ 63 := by
    have hlow := n.le_toInt
    have hhigh := n.toInt_lt
    omega
  have hmax : 2 ^ 63 ≤ maxInteger := by decide
  exact (Nat.div_le_self _ _).trans (hbounds.trans hmax)

/-! ## Round trips -/

/--
**Reading and writing undo each other.**

Every expansion whose integer part is a word of 64 bits is read back from its text, and these are
all that a sign, an integer part, digits and a start of their repetition can make up. What is read
from any text is such an expansion, and its text is the one that was read without redundant zeros in
front of its integer part. Every quotient of words comes back from its text, in either way to divide;
the way that describes repetitions has a result for every divisor but zero.
-/
theorem ofText_text :
    (∀ e : Expansion, e.integerPart ≤ maxInteger → ofText e.text = .ok e)
    ∧ (∀ (negative : Bool) (n : Nat) (ds : List Digit) (start : Option Nat),
        (∀ i ∈ start, i < ds.length) →
        ∃ e : Expansion, e.negative = negative ∧ e.integerPart = n ∧ e.digits = ds
          ∧ e.repeatStart = start)
    ∧ (∀ s e, ofText s = .ok e →
        e.integerPart ≤ maxInteger ∧ (∀ i ∈ e.repeatStart, i < e.digits.length)
        ∧ e.text.toList = withoutLeadingZeros s.toList)
    ∧ ∀ n d : Int64,
        (∀ mode e, ofFraction mode n.toInt d.toInt = .ok e → ofText e.text = .ok e)
        ∧ (d ≠ 0 → ∃ e, ofFraction .describe n.toInt d.toInt = .ok e) := by
  have hback (e : Expansion) (h : e.integerPart ≤ maxInteger) : ofText e.text = .ok e := by
    rw [ofText_eq_ok_iff, text, String.toList_ofList]
    exact spells_chars h
  refine ⟨hback, ?_, ?_, ?_⟩
  · intro negative n ds start hstart
    exact ⟨ofDigits negative n ds start, negative_ofDigits _ _ _ _, integerPart_ofDigits _ _ _ _,
      digits_ofDigits _ _ _ _, repeatStart_ofDigits _ _ hstart⟩
  · intro s e h
    have hspells := ofText_eq_ok_iff.mp h
    refine ⟨hspells.integerPart_le, e.repeatStart_lt, ?_⟩
    rw [text, String.toList_ofList, hspells.chars_eq]
  · intro n d
    refine ⟨fun mode e he => hback e ?_, fun hd => ?_⟩
    · rw [integerPart_ofFraction he]
      exact natAbs_div_le_maxInteger n d.toInt
    · have hne : d.toInt ≠ 0 := fun h => hd (Int64.toInt_inj.mp h)
      obtain ⟨_, _, -, he⟩ := ofFraction_describe n.toInt hne
      exact ⟨_, he⟩

/-- Negative zero, zeros in front, and the largest quotient there is. -/
theorem ofText_text_extremes :
    ofText (text ⟨true, 0, [], []⟩) = .ok ⟨true, 0, [], []⟩
    ∧ (∃ e, ofText "-000.0(10)" = .ok e ∧ e.text.toList = "-0.0(10)".toList)
    ∧ ∃ e, ofFraction .describe Int64.minValue.toInt (-1) = .ok e ∧ ofText e.text = .ok e := by
  obtain ⟨hback, -, hread, hquotient⟩ := ofText_text
  have hzeros : ofText "-000.0(10)" = .ok ⟨true, 0, [0], [1, 0]⟩ := by decide +kernel
  obtain ⟨hquotient, hdescribed⟩ := hquotient Int64.minValue (-1)
  obtain ⟨e, he⟩ := hdescribed (by decide)
  refine ⟨hback _ (Nat.zero_le _), ⟨_, hzeros, ?_⟩, e, he, hquotient _ e he⟩
  obtain ⟨-, -, htext⟩ := hread _ _ hzeros
  rw [htext]
  decide

end Expansion

end Recurrence
