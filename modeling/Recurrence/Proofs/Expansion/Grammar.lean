import Mathlib.Data.List.TakeWhile
import Recurrence.Expansion.Text
import Recurrence.Proofs.Decimal.Reading
import Recurrence.Proofs.Sequencing

/-!
# The grammar of the notation

`Spells` says which texts are expansions, and of which, without saying how they are read: a sign, a
numeral that fits a word, and one of three forms of a fractional part. The reader cuts a text at its
first point and its first opening parenthesis. No digit is a point or a parenthesis, so there is
only one way in which a text of the grammar can be cut, and `Reading.ofChars_eq_ok_iff` says that
the reader finds it. A second point, a second parenthesis or a sign in the wrong place ends up among
what should be digits.

The reader notes the digits and the start of their repetition apart. That the start lies inside the
digits is due to the grammar, in which a group has a digit at least.
-/

namespace Recurrence

/-! ## Digits -/

theorem Digit.eq_char_of_ofChar? {c : Char} {d : Digit} (h : Digit.ofChar? c = some d) :
    c = d.char := by
  unfold Digit.ofChar? at h
  split at h
  · rename_i hrange
    cases h
    have hcode : 48 + (c.toNat - 48) % 10 = c.toNat := by omega
    rw [Digit.char, Digit.ofNat, hcode, Char.ofNat_toNat]
  · cases h

theorem Digits.ofChars?_eq_some_iff {cs : List Char} {ds : List Digit} :
    Digits.ofChars? cs = some ds ↔ cs = Digits.chars ds := by
  refine ⟨fun h => ?_, fun h => h ▸ Digits.ofChars?_chars ds⟩
  induction cs generalizing ds with
  | nil =>
    cases h
    rfl
  | cons c cs ih =>
    obtain ⟨d, hd, h⟩ := Option.bind_eq_some_iff.mp h
    obtain ⟨ds', hds, h⟩ := Option.bind_eq_some_iff.mp h
    cases h
    rw [Digit.eq_char_of_ofChar? hd, ih hds]
    rfl

theorem AllDigits.exists_chars {cs : List Char} (h : AllDigits cs) :
    ∃ ds, cs = Digits.chars ds := by
  have hdigit (c : Char) (hc : c.isDigit = true) : ∃ d : Digit, c = d.char := by
    simp only [Char.isDigit, Bool.and_eq_true, decide_eq_true_eq] at hc
    exact ⟨_, Digit.eq_char_of_ofChar? (if_pos hc)⟩
  induction cs with
  | nil => exact ⟨[], rfl⟩
  | cons c cs ih =>
    obtain ⟨hc, hcs⟩ := List.forall_mem_cons.mp h
    obtain ⟨d, rfl⟩ := hdigit c hc
    obtain ⟨ds, rfl⟩ := ih hcs
    exact ⟨d :: ds, rfl⟩

namespace Expansion

/-! ## The grammar -/

/-- One digit or more. -/
structure Numeral (cs : List Char) : Prop where
  ne_nil : cs ≠ []
  allDigits : AllDigits cs

/-- The forms of a fractional part: its text, the digits in it, and where their repetition starts. -/
inductive Fraction : (text digits : List Char) → (repeatStart : Option Nat) → Prop
  | absent : Fraction [] [] none
  | terminating {ds : List Char} : Numeral ds → Fraction ('.' :: ds) ds none
  | repeating {lead group : List Char} : AllDigits lead → Numeral group →
      Fraction ('.' :: (lead ++ '(' :: (group ++ [')']))) (lead ++ group) (some lead.length)

/-- The text is a sign or none, a numeral that fits a word, and a fractional part. -/
def Grammatical (text : List Char) : Prop :=
  ∃ sign number fraction digits repeatStart, text = sign ++ (number ++ fraction)
    ∧ (sign = [] ∨ sign = ['-']) ∧ Numeral number ∧ digitsValue number ≤ maxInteger
    ∧ Fraction fraction digits repeatStart

/-- The text is a way to write the expansion: it is made of the sign, a numeral of the integer part,
and the digits with their repetition. -/
def Spells (text : List Char) (e : Expansion) : Prop :=
  ∃ number fraction, text = (if e.negative then ['-'] else []) ++ (number ++ fraction)
    ∧ Numeral number ∧ digitsValue number ≤ maxInteger ∧ e.integerPart = digitsValue number
    ∧ Fraction fraction (Digits.chars e.digits) e.repeatStart

/-- The text shows what is noted of it, in the same way. -/
def Shows (text : List Char) (r : Reading) : Prop :=
  ∃ number fraction, text = (if r.negative then ['-'] else []) ++ (number ++ fraction)
    ∧ Numeral number ∧ digitsValue number ≤ maxInteger ∧ r.integerPart = digitsValue number
    ∧ Fraction fraction (Digits.chars r.digits) r.repeatStart

theorem numeral_chars {ds : List Digit} (h : ds ≠ []) : Numeral (Digits.chars ds) :=
  ⟨mt List.map_eq_nil_iff.mp h, allDigits_chars ds⟩

theorem Numeral.exists_chars {cs : List Char} (h : Numeral cs) :
    ∃ ds, ds ≠ [] ∧ cs = Digits.chars ds := by
  obtain ⟨ds, rfl⟩ := h.allDigits.exists_chars
  exact ⟨ds, fun hnil => h.ne_nil (congrArg Digits.chars hnil), rfl⟩

theorem fractionChars_terminating {lead : List Digit} (h : lead ≠ []) :
    fractionChars lead [] = '.' :: Digits.chars lead := by
  simp [fractionChars, h]

theorem fractionChars_repeating (lead : List Digit) {period : List Digit} (h : period ≠ []) :
    fractionChars lead period
      = '.' :: (Digits.chars lead ++ '(' :: (Digits.chars period ++ [')'])) := by
  simp [fractionChars, h]

/-- There is no fractional part, or it starts with a point. -/
theorem fractionChars_shape (lead period : List Digit) :
    (lead = [] ∧ period = []) ∨ ∃ rest, fractionChars lead period = '.' :: rest := by
  by_cases hperiod : period = []
  · subst hperiod
    by_cases hlead : lead = []
    · exact .inl ⟨hlead, rfl⟩
    · exact .inr ⟨_, fractionChars_terminating hlead⟩
  · exact .inr ⟨_, fractionChars_repeating lead hperiod⟩

/-- An expansion has its fractional part in one form only, the one in which it is written. -/
theorem fraction_iff {text : List Char} {e : Expansion} :
    Fraction text (Digits.chars e.digits) e.repeatStart
      ↔ text = fractionChars e.preperiod e.period := by
  obtain ⟨negative, n, lead, period⟩ := e
  have happend : Digits.chars (lead ++ period) = Digits.chars lead ++ Digits.chars period :=
    List.map_append
  simp only [digits, repeatStart]
  by_cases hperiod : period = []
  · subst hperiod
    simp only [List.append_nil, List.isEmpty_nil, if_true]
    constructor
    · intro h
      generalize hds : Digits.chars lead = ds at h
      cases h with
      | absent => rw [List.map_eq_nil_iff.mp hds]; rfl
      | terminating h =>
        rw [fractionChars_terminating, hds]
        exact fun hnil => h.ne_nil (hds.symm.trans (congrArg Digits.chars hnil))
    · rintro rfl
      by_cases hlead : lead = []
      · subst hlead
        exact .absent
      · rw [fractionChars_terminating hlead]
        exact .terminating (numeral_chars hlead)
  · rw [fractionChars_repeating lead hperiod, happend, if_neg (by simpa using hperiod)]
    constructor
    · intro h
      generalize hds : Digits.chars lead ++ Digits.chars period = ds at h
      generalize hstart : some lead.length = start at h
      cases h with
      | repeating _ _ =>
        have hlength : (Digits.chars lead).length = _ :=
          (List.length_map _).trans (Option.some.inj hstart)
        obtain ⟨rfl, rfl⟩ := List.append_inj hds hlength
        rfl
      | absent | terminating => cases hstart
    · rintro rfl
      have hlength : lead.length = (Digits.chars lead).length := (List.length_map _).symm
      rw [hlength]
      exact .repeating (allDigits_chars lead) (numeral_chars hperiod)

/-- A text of the grammar is a way to write some expansion. -/
theorem grammatical_iff {text : List Char} : Grammatical text ↔ ∃ e, Spells text e := by
  constructor
  · rintro ⟨sign, number, fraction, digits, start, rfl, hsign, hnumeral, hle, hfraction⟩
    obtain ⟨lead, period, rfl, rfl⟩ : ∃ lead period,
        Digits.chars (lead ++ period) = digits
        ∧ (if period.isEmpty then none else some lead.length) = start := by
      cases hfraction with
      | absent => exact ⟨[], [], rfl, rfl⟩
      | terminating h =>
        obtain ⟨ds, -, rfl⟩ := h.exists_chars
        exact ⟨ds, [], by rw [List.append_nil], rfl⟩
      | repeating hlead hgroup =>
        obtain ⟨lead, rfl⟩ := hlead.exists_chars
        obtain ⟨period, hne, rfl⟩ := hgroup.exists_chars
        refine ⟨lead, period, List.map_append, ?_⟩
        rw [if_neg (by simpa using hne), Digits.chars, List.length_map]
    obtain ⟨negative, rfl⟩ : ∃ negative, sign = if negative = true then ['-'] else [] := by
      rcases hsign with rfl | rfl
      · exact ⟨false, rfl⟩
      · exact ⟨true, rfl⟩
    exact ⟨⟨negative, digitsValue number, lead, period⟩, number, fraction, rfl, hnumeral, hle, rfl,
      hfraction⟩
  · rintro ⟨e, number, fraction, rfl, hnumeral, hle, -, hfraction⟩
    refine ⟨_, number, fraction, _, _, rfl, ?_, hnumeral, hle, hfraction⟩
    cases e.negative with
    | true => exact .inr rfl
    | false => exact .inl rfl

/-! ## The reader -/

/-- A text is cut at the first place where a character stands. -/
theorem cut_at {c : Char} {front rest : List Char} (h : c ∉ front) :
    (front ++ c :: rest).takeWhile (· ≠ c) = front
    ∧ (front ++ c :: rest).dropWhile (· ≠ c) = c :: rest := by
  induction front with
  | nil => simp
  | cons d front ih =>
    rw [List.mem_cons, not_or] at h
    simpa [Ne.symm h.1] using ih h.2

/-- A text is left in one piece if the character does not stand in it. -/
theorem cut_none {c : Char} {cs : List Char} (h : c ∉ cs) :
    cs.takeWhile (· ≠ c) = cs ∧ cs.dropWhile (· ≠ c) = [] := by
  have hne : ∀ d ∈ cs, decide (d ≠ c) = true := fun d hd => by simpa using ne_of_mem_of_not_mem hd h
  exact ⟨List.takeWhile_eq_self_iff.mpr hne, List.dropWhile_eq_nil_iff.mpr hne⟩

theorem fitted_eq_ok_iff {n v : Nat} : fitted n = .ok v ↔ n ≤ maxInteger ∧ v = n := by
  unfold fitted
  split
  · rename_i hle
    rw [Except.ok.injEq]
    exact ⟨fun h => ⟨hle, h.symm⟩, fun h => h.2.symm⟩
  · rename_i hnle
    exact iff_of_false nofun fun h => hnle h.1

/-- The value on the way to a word is a word. -/
theorem fittedValue_eq_ok_iff {ds : List Digit} {n : Nat} :
    fittedValue ds = .ok n ↔ Digits.value ds ≤ maxInteger ∧ n = Digits.value ds := by
  induction ds using List.reverseRecOn generalizing n with
  | nil =>
    have hempty : fittedValue [] = .ok 0 := rfl
    rw [hempty, Except.ok.injEq]
    exact ⟨fun h => ⟨Nat.zero_le _, h.symm⟩, fun h => h.2.symm⟩
  | append_singleton ds d ih =>
    have hsteps : fittedValue (ds ++ [d])
        = fittedValue ds >>= fun v => fitted (v * 10) >>= fun w => fitted (w + d.val) := by
      simp [fittedValue, List.foldlM_append]
    rw [hsteps, Digits.value_append_singleton]
    simp only [bind_eq_ok, fitted_eq_ok_iff, ih]
    constructor
    · rintro ⟨_, ⟨-, rfl⟩, _, ⟨-, rfl⟩, hle, rfl⟩
      rw [Nat.mul_comm]
      exact ⟨hle, rfl⟩
    · rintro ⟨hle, rfl⟩
      rw [Nat.mul_comm] at hle ⊢
      exact ⟨_, ⟨by omega, rfl⟩, _, ⟨by omega, rfl⟩, hle, rfl⟩

theorem readDigits_eq_ok_iff {fault : Fault} {cs : List Char} {ds : List Digit} :
    readDigits fault cs = .ok ds ↔ cs = Digits.chars ds := by
  rw [← Digits.ofChars?_eq_some_iff, readDigits]
  cases Digits.ofChars? cs with
  | none => exact iff_of_false nofun nofun
  | some ds' => rw [Except.ok.injEq, Option.some.injEq]

theorem readInteger_eq_ok_iff {cs : List Char} {n : Nat} :
    readInteger cs = .ok n ↔ Numeral cs ∧ digitsValue cs ≤ maxInteger ∧ n = digitsValue cs := by
  unfold readInteger
  split
  · rename_i hempty
    exact iff_of_false nofun fun h => h.1.ne_nil (List.isEmpty_iff.mp hempty)
  · rename_i hne
    simp only [bind_eq_ok, readDigits_eq_ok_iff, fittedValue_eq_ok_iff]
    constructor
    · rintro ⟨ds, rfl, hle, rfl⟩
      rw [digitsValue_chars]
      exact ⟨⟨by simpa using hne, allDigits_chars ds⟩, hle, rfl⟩
    · rintro ⟨hnumeral, hle, rfl⟩
      obtain ⟨ds, rfl⟩ := hnumeral.allDigits.exists_chars
      rw [digitsValue_chars] at hle ⊢
      exact ⟨ds, rfl, hle, rfl⟩

theorem readGroup_eq_ok_iff {cs group : List Char} :
    readGroup cs = .ok group ↔ cs = group ++ [')'] ∧ group ≠ [] := by
  unfold readGroup
  split
  · rename_i hlast
    obtain ⟨front, rfl⟩ := List.getLast?_eq_some_iff.mp hlast
    rw [List.dropLast_concat, List.append_left_inj]
    split
    · rename_i hempty
      refine iff_of_false nofun ?_
      rintro ⟨rfl, hne⟩
      exact hne (List.isEmpty_iff.mp hempty)
    · rename_i hne
      rw [Except.ok.injEq]
      refine ⟨?_, And.left⟩
      rintro rfl
      exact ⟨rfl, by simpa using hne⟩
  · rename_i hlast
    refine iff_of_false nofun ?_
    rintro ⟨rfl, -⟩
    exact hlast List.getLast?_concat

/-- The text is in one piece, or it is cut at its first opening parenthesis. -/
theorem cutGroup_eq_ok_iff {cs lead : List Char} {group : Option (List Char)} :
    cutGroup cs = .ok (lead, group)
      ↔ '(' ∉ lead ∧ ((cs = lead ∧ group = none)
          ∨ ∃ g, cs = lead ++ '(' :: (g ++ [')']) ∧ g ≠ [] ∧ group = some g) := by
  unfold cutGroup
  by_cases hmem : '(' ∈ cs
  · obtain ⟨front, rest, rfl, hfront⟩ := List.eq_append_cons_of_mem hmem
    rw [(cut_at hfront).1, (cut_at hfront).2]
    simp only [bind_eq_ok, readGroup_eq_ok_iff]
    constructor
    · rintro ⟨g, ⟨rfl, hne⟩, h⟩
      cases h
      exact ⟨hfront, .inr ⟨g, rfl, hne, rfl⟩⟩
    · rintro ⟨hlead, ⟨rfl, -⟩ | ⟨g, hcs, hne, rfl⟩⟩
      · exact absurd hmem hlead
      · -- both cuts are at the first opening parenthesis
        have hsame : front = lead := (cut_at hfront).1.symm.trans (hcs ▸ (cut_at hlead).1)
        subst hsame
        have hrest := (List.cons.inj (List.append_cancel_left hcs)).2
        exact ⟨g, ⟨hrest, hne⟩, rfl⟩
  · rw [(cut_none hmem).2, Except.ok.injEq, Prod.mk.injEq]
    constructor
    · rintro ⟨rfl, rfl⟩
      exact ⟨hmem, .inl ⟨rfl, rfl⟩⟩
    · rintro ⟨-, ⟨rfl, rfl⟩ | ⟨g, rfl, -, -⟩⟩
      · exact ⟨rfl, rfl⟩
      · exact absurd (List.mem_append_right lead List.mem_cons_self) hmem

/-- The pieces are read as digits, and there is at least one. -/
theorem readFraction_eq_ok {cs : List Char} {ds : List Digit} {start : Option Nat} :
    readFraction cs = .ok (ds, start)
      ↔ ∃ lead group, cutGroup cs = .ok (Digits.chars lead, group)
          ∧ ∃ period, group.getD [] = Digits.chars period ∧ lead ++ period ≠ []
            ∧ ds = lead ++ period ∧ start = group.map fun _ => lead.length := by
  unfold readFraction
  simp only [bind_eq_ok, readDigits_eq_ok_iff, Prod.exists]
  constructor
  · rintro ⟨_, group, hcut, lead, rfl, period, hperiod, h⟩
    split at h
    · cases h
    · rename_i hne
      cases h
      exact ⟨lead, group, hcut, period, hperiod, by simpa using hne, rfl, rfl⟩
  · rintro ⟨lead, group, hcut, period, hperiod, hne, rfl, rfl⟩
    exact ⟨_, group, hcut, lead, rfl, period, hperiod, if_neg (by simpa using hne)⟩

/-- A fractional part is read as its digits and the start of their repetition. -/
theorem readFraction_eq_ok_iff {cs : List Char} {ds : List Digit} {start : Option Nat} :
    readFraction cs = .ok (ds, start) ↔ Fraction ('.' :: cs) (Digits.chars ds) start := by
  have happend (lead period : List Digit) :
      Digits.chars (lead ++ period) = Digits.chars lead ++ Digits.chars period := List.map_append
  have hparen (ds : List Digit) : '(' ∉ Digits.chars ds := (allDigits_chars ds).notMem rfl
  rw [readFraction_eq_ok]
  constructor
  · rintro ⟨lead, group, hcut, period, hperiod, hne, rfl, rfl⟩
    rcases cutGroup_eq_ok_iff.mp hcut with ⟨-, ⟨rfl, rfl⟩ | ⟨g, rfl, hg, rfl⟩⟩
    · obtain rfl : period = [] := List.map_eq_nil_iff.mp hperiod.symm
      rw [List.append_nil] at hne ⊢
      exact .terminating (numeral_chars hne)
    · obtain rfl : g = Digits.chars period := hperiod
      have hlength : lead.length = (Digits.chars lead).length := (List.length_map _).symm
      rw [happend, Option.map_some, hlength]
      exact .repeating (allDigits_chars lead) ⟨hg, allDigits_chars period⟩
  · intro h
    generalize hds : Digits.chars ds = digits at h
    cases h with
    | terminating hnumeral =>
      subst hds
      have hne : ds ≠ [] := fun hnil => hnumeral.ne_nil (congrArg Digits.chars hnil)
      refine ⟨ds, none, cutGroup_eq_ok_iff.mpr ⟨hparen ds, .inl ⟨rfl, rfl⟩⟩, [], rfl, ?_⟩
      rw [List.append_nil]
      exact ⟨hne, rfl, rfl⟩
    | repeating hlead hgroup =>
      obtain ⟨lead, rfl⟩ := hlead.exists_chars
      obtain ⟨period, hperiod, rfl⟩ := hgroup.exists_chars
      rw [← happend] at hds
      have hsame : ds = lead ++ period := by
        have hread := Digits.ofChars?_chars ds
        rw [hds, Digits.ofChars?_chars] at hread
        exact (Option.some.inj hread).symm
      have hcut := cutGroup_eq_ok_iff.mpr
        ⟨hparen lead, .inr ⟨Digits.chars period, rfl, hgroup.ne_nil, rfl⟩⟩
      refine ⟨lead, _, hcut, period, rfl, ?_, hsame, ?_⟩
      · exact List.append_ne_nil_of_right_ne_nil lead hperiod
      · rw [Option.map_some, Digits.chars, List.length_map]

/-- A fractional part is empty, or it starts with a point. -/
theorem Fraction.shape {text digits : List Char} {start : Option Nat}
    (h : Fraction text digits start) :
    (text = [] ∧ digits = [] ∧ start = none) ∨ ∃ rest, text = '.' :: rest := by
  cases h with
  | absent => exact .inl ⟨rfl, rfl, rfl⟩
  | terminating _ | repeating _ _ => exact .inr ⟨_, rfl⟩

/-- What is behind the sign is an integer part and a fractional part. -/
theorem readUnsigned_eq_ok_iff {negative : Bool} {cs : List Char} {r : Reading} :
    readUnsigned negative cs = .ok r
      ↔ r.negative = negative
        ∧ ∃ number fraction, cs = number ++ fraction ∧ readInteger number = .ok r.integerPart
          ∧ Fraction fraction (Digits.chars r.digits) r.repeatStart := by
  unfold readUnsigned
  rw [bind_eq_ok]
  constructor
  · rintro ⟨n, hinteger, h⟩
    by_cases hmem : '.' ∈ cs
    · obtain ⟨front, rest, rfl, hfront⟩ := List.eq_append_cons_of_mem hmem
      rw [(cut_at hfront).1] at hinteger
      rw [(cut_at hfront).2] at h
      obtain ⟨⟨ds, start⟩, hfraction, h⟩ := bind_eq_ok.mp h
      cases h
      exact ⟨rfl, front, _, rfl, hinteger, readFraction_eq_ok_iff.mp hfraction⟩
    · rw [(cut_none hmem).1] at hinteger
      rw [(cut_none hmem).2] at h
      cases h
      exact ⟨rfl, cs, [], (List.append_nil cs).symm, hinteger, .absent⟩
  · obtain ⟨negative', n, ds, start⟩ := r
    rintro ⟨rfl, number, fraction, rfl, hinteger, hfraction⟩
    have hpoint : '.' ∉ number := (readInteger_eq_ok_iff.mp hinteger).1.allDigits.notMem rfl
    refine ⟨n, ?_⟩
    rcases hfraction.shape with ⟨rfl, hds, rfl⟩ | ⟨rest, rfl⟩
    · obtain rfl : ds = [] := List.map_eq_nil_iff.mp hds
      rw [List.append_nil, (cut_none hpoint).1, (cut_none hpoint).2]
      exact ⟨hinteger, rfl⟩
    · rw [(cut_at hpoint).1, (cut_at hpoint).2]
      exact ⟨hinteger, bind_eq_ok.mpr ⟨_, readFraction_eq_ok_iff.mpr hfraction, rfl⟩⟩

theorem shows_iff {text : List Char} {r : Reading} :
    Shows text r
      ↔ ∃ number fraction, text = (if r.negative then ['-'] else []) ++ (number ++ fraction)
          ∧ readInteger number = .ok r.integerPart
          ∧ Fraction fraction (Digits.chars r.digits) r.repeatStart := by
  simp only [Shows, readInteger_eq_ok_iff, and_assoc]

/-- **What the reader accepts is the grammar**, and it notes what the text shows. -/
theorem Reading.ofChars_eq_ok_iff {cs : List Char} {r : Reading} :
    Reading.ofChars cs = .ok r ↔ Shows cs r := by
  rw [shows_iff]
  unfold Reading.ofChars
  split
  · rename_i cs
    rw [readUnsigned_eq_ok_iff]
    cases hnegative : r.negative with
    | true => simp
    | false =>
      -- an integer part does not start with a sign
      refine iff_of_false nofun ?_
      rintro ⟨number, fraction, htext, hinteger, -⟩
      have hnumeral := (readInteger_eq_ok_iff.mp hinteger).1
      obtain ⟨c, number, rfl⟩ := List.exists_cons_of_ne_nil hnumeral.ne_nil
      cases htext
      exact absurd (hnumeral.allDigits '-' List.mem_cons_self) (by decide)
  · rename_i cs hsign
    rw [readUnsigned_eq_ok_iff]
    cases hnegative : r.negative with
    | false => simp
    | true =>
      refine iff_of_false nofun ?_
      rintro ⟨number, fraction, rfl, -⟩
      exact hsign _ rfl

/-! ## Readings and expansions -/

/-- A group has a digit at least, so a repetition starts inside the digits. -/
theorem Fraction.start_lt {text digits : List Char} {start : Option Nat}
    (h : Fraction text digits start) : ∀ i ∈ start, i < digits.length := by
  cases h with
  | absent | terminating _ => exact nofun
  | @repeating lead group _ hgroup =>
    rintro i ⟨⟩
    have hpos : 0 < group.length := List.length_pos_of_ne_nil hgroup.ne_nil
    rw [List.length_append]
    omega

theorem Shows.start_lt {text : List Char} {r : Reading} (h : Shows text r) :
    ∀ i ∈ r.repeatStart, i < r.digits.length := by
  obtain ⟨_, _, -, -, -, -, hfraction⟩ := h
  have hlength : (Digits.chars r.digits).length = r.digits.length := List.length_map _
  exact hlength ▸ hfraction.start_lt

theorem Reading.digits_expansion (r : Reading) : r.expansion.digits = r.digits :=
  digits_ofDigits _ _ _ _

theorem Shows.repeatStart_expansion {text : List Char} {r : Reading} (h : Shows text r) :
    r.expansion.repeatStart = r.repeatStart :=
  repeatStart_ofDigits _ _ h.start_lt

/-- What spells an expansion shows its parts, and nothing else does. -/
theorem spells_iff_shows {text : List Char} {e : Expansion} :
    Spells text e ↔ ∃ r : Reading, Shows text r ∧ r.expansion = e := by
  constructor
  · intro h
    exact ⟨⟨e.negative, e.integerPart, e.digits, e.repeatStart⟩, h, ofDigits_digits e⟩
  · rintro ⟨r, h, rfl⟩
    have hstart := h.repeatStart_expansion
    obtain ⟨number, fraction, htext, hnumeral, hle, hvalue, hfraction⟩ := h
    have hnegative : r.expansion.negative = r.negative := negative_ofDigits _ _ _ _
    have hinteger : r.expansion.integerPart = r.integerPart := integerPart_ofDigits _ _ _ _
    refine ⟨number, fraction, ?_, hnumeral, hle, hinteger.trans hvalue, ?_⟩
    · rw [hnegative, htext]
    · rw [r.digits_expansion, hstart]
      exact hfraction

theorem spells_iff {text : List Char} {e : Expansion} :
    Spells text e
      ↔ ∃ number, text = (if e.negative then ['-'] else [])
            ++ (number ++ fractionChars e.preperiod e.period)
          ∧ readInteger number = .ok e.integerPart := by
  simp only [Spells, fraction_iff, readInteger_eq_ok_iff]
  constructor
  · rintro ⟨number, _, htext, hnumeral, hle, hvalue, rfl⟩
    exact ⟨number, htext, hnumeral, hle, hvalue⟩
  · rintro ⟨number, htext, hnumeral, hle, hvalue⟩
    exact ⟨number, _, htext, hnumeral, hle, hvalue, rfl⟩

theorem ofText_eq_ok_iff {s : String} {e : Expansion} :
    ofText s = .ok e ↔ Spells s.toList e := by
  rw [spells_iff_shows]
  simp only [← Reading.ofChars_eq_ok_iff]
  unfold ofText
  cases Reading.ofChars s.toList with
  | ok r => simp
  | error fault => exact iff_of_false nofun nofun

/-- A repetition starts inside the digits. -/
theorem repeatStart_lt (e : Expansion) : ∀ i ∈ e.repeatStart, i < e.digits.length := by
  intro i hi
  unfold repeatStart at hi
  split at hi
  · cases hi
  · rename_i hperiod
    cases hi
    have hpos : 0 < e.period.length := List.length_pos_of_ne_nil (by simpa using hperiod)
    rw [digits, List.length_append]
    omega

/--
**A text is accepted exactly if it is of the grammar.** What it is read as has the sign, the value
of the numeral, the digits in their order and the start of the repetition that the text shows. The
reader notes the digits and the start apart, and the start that it notes lies inside the digits.
Every other text is refused with an error that carries it.
-/
theorem ofText_grammatical (s : String) :
    ((∃ e, ofText s = .ok e) ↔ Grammatical s.toList)
    ∧ (∀ e, ofText s = .ok e ↔ Spells s.toList e)
    ∧ (∀ e, ofText s = .ok e → ∃ r, Reading.ofChars s.toList = .ok r ∧ r.expansion = e
        ∧ r.digits = e.digits ∧ r.repeatStart = e.repeatStart
        ∧ ∀ i ∈ r.repeatStart, i < r.digits.length)
    ∧ ((∃ fault, ofText s = .error ⟨s, fault⟩) ↔ ¬ Grammatical s.toList) := by
  have haccepted : (∃ e, ofText s = .ok e) ↔ Grammatical s.toList := by
    simp only [grammatical_iff, ofText_eq_ok_iff]
  refine ⟨haccepted, fun e => ofText_eq_ok_iff, ?reading, ?refused⟩
  case reading =>
    intro e he
    obtain ⟨r, hr, rfl⟩ := spells_iff_shows.mp (ofText_eq_ok_iff.mp he)
    exact ⟨r, Reading.ofChars_eq_ok_iff.mpr hr, rfl, r.digits_expansion.symm,
      hr.repeatStart_expansion.symm, hr.start_lt⟩
  case refused =>
    rw [← haccepted, ofText]
    cases Reading.ofChars s.toList with
    | ok r => exact iff_of_false nofun fun h => h ⟨_, rfl⟩
    | error fault => exact iff_of_true ⟨fault, rfl⟩ nofun

/-- A minus sign and leading zeros are read; a second group stands among the digits of the first. -/
theorem ofText_grammatical_sixths :
    ofText "-007.1(6)" = .ok ⟨true, 7, [1], [6]⟩
    ∧ Spells "-007.1(6)".toList ⟨true, 7, [1], [6]⟩
    ∧ ofText "1.(6)(6)" = .error ⟨"1.(6)(6)", .groupNotDigits⟩
    ∧ ¬ Grammatical "1.(6)(6)".toList := by
  have hread : ofText "-007.1(6)" = .ok ⟨true, 7, [1], [6]⟩ := by decide +kernel
  have hfault : ofText "1.(6)(6)" = .error ⟨"1.(6)(6)", .groupNotDigits⟩ := by decide +kernel
  obtain ⟨-, hspells, -, -⟩ := ofText_grammatical "-007.1(6)"
  obtain ⟨-, -, -, hrefused⟩ := ofText_grammatical "1.(6)(6)"
  exact ⟨hread, (hspells _).mp hread, hfault, hrefused.mp ⟨_, hfault⟩⟩

end Expansion

end Recurrence
