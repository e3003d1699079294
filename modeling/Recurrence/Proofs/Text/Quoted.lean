import Mathlib.Tactic.SplitIfs
import Recurrence.Text.Quoted

/-!
# A quoted text has one end and one content

Inside a quoted text a backslash takes the character behind it, and no other quote is left there
(`Escaped`). So the first quote that is not taken is the end: texts that begin with quoted texts
agree in them and in what follows (`Escaped.append_inj`). The key form of a character can be read
back from the front of a text, so different texts have different key forms.
-/

namespace Recurrence.Text

/-! ## Ends -/

/-- What may stand between quotes. -/
inductive Escaped : List Char → Prop
  | nil : Escaped []
  | escape (c : Char) {cs : List Char} : Escaped cs → Escaped ('\\' :: c :: cs)
  | plain {c : Char} {cs : List Char} : c ≠ '"' → c ≠ '\\' → Escaped cs → Escaped (c :: cs)

/-- **The first quote that is not escaped is the end.** -/
theorem Escaped.append_inj {s t r r' : List Char} (hs : Escaped s) (ht : Escaped t)
    (h : s ++ '"' :: r = t ++ '"' :: r') : s = t ∧ r = r' := by
  -- a free quote, a backslash and another character never stand in one place of both
  induction hs generalizing t with
  | nil =>
    cases ht with
    | nil => exact ⟨rfl, (List.cons.inj h).2⟩
    | escape => cases h
    | plain hquote => exact absurd (List.cons.inj h).1.symm hquote
  | escape c _ ih =>
    cases ht with
    | nil => cases h
    | escape d ht =>
      obtain ⟨rfl, htail⟩ := List.cons.inj (List.cons.inj h).2
      obtain ⟨rfl, hrest⟩ := ih ht htail
      exact ⟨rfl, hrest⟩
    | plain _ hbackslash => exact absurd (List.cons.inj h).1.symm hbackslash
  | plain hquote hbackslash _ ih =>
    cases ht with
    | nil => exact absurd (List.cons.inj h).1 hquote
    | escape => exact absurd (List.cons.inj h).1 hbackslash
    | plain _ _ ht =>
      obtain ⟨rfl, htail⟩ := List.cons.inj h
      obtain ⟨rfl, hrest⟩ := ih ht htail
      exact ⟨rfl, hrest⟩

theorem hexDigit_plain : ∀ n < 16, hexDigit n ≠ '"' ∧ hexDigit n ≠ '\\' := by decide

theorem escaped_keyEscape (c : Char) {cs : List Char} (h : Escaped cs) :
    Escaped (keyEscape c ++ cs) := by
  unfold keyEscape
  split_ifs with hquote hbackslash hb ht hn hf hr hcontrol
  · exact .escape _ h
  · exact .escape _ h
  · exact .escape _ h
  · exact .escape _ h
  · exact .escape _ h
  · exact .escape _ h
  · exact .escape _ h
  · obtain ⟨hhigh, hhigh'⟩ := hexDigit_plain (c.toNat / 16) (by omega)
    obtain ⟨hlow, hlow'⟩ := hexDigit_plain (c.toNat % 16) (by omega)
    exact .escape _ (.plain (by decide) (by decide) (.plain (by decide) (by decide)
      (.plain hhigh hhigh' (.plain hlow hlow' h))))
  · exact .plain hquote hbackslash h

theorem exists_quoteKey (cs : List Char) :
    ∃ inside, Escaped inside ∧ quoteKey cs = '"' :: (inside ++ ['"']) := by
  refine ⟨cs.flatMap keyEscape, ?_, rfl⟩
  induction cs with
  | nil => exact .nil
  | cons c cs ih =>
    rw [List.flatMap_cons]
    exact escaped_keyEscape c ih

/-! ## Contents -/

/-- The number of a hexadecimal digit. -/
def hexValue (c : Char) : Nat := if c.isDigit then c.toNat - 48 else c.toNat - 87

/-- The character in front of a text in key form, and what follows it. -/
def readKey : List Char → Option (Char × List Char)
  | '\\' :: 'b' :: rest => some ('\x08', rest)
  | '\\' :: 't' :: rest => some ('\t', rest)
  | '\\' :: 'n' :: rest => some ('\n', rest)
  | '\\' :: 'f' :: rest => some ('\x0c', rest)
  | '\\' :: 'r' :: rest => some ('\r', rest)
  | '\\' :: 'u' :: '0' :: '0' :: high :: low :: rest =>
    some (Char.ofNat (hexValue high * 16 + hexValue low), rest)
  | '\\' :: c :: rest => some (c, rest)
  | '"' :: _ => none
  | c :: rest => some (c, rest)
  | [] => none

theorem hexValue_hexDigit : ∀ n < 16, hexValue (hexDigit n) = n := by decide

/-- **The key form of a character can be read back.** -/
theorem readKey_keyEscape (c : Char) (rest : List Char) :
    readKey (keyEscape c ++ rest) = some (c, rest) := by
  unfold keyEscape
  split_ifs with hquote hbackslash hb ht hn hf hr hcontrol
  · rw [hquote]; rfl
  · rw [hbackslash]; rfl
  · rw [hb]; rfl
  · rw [ht]; rfl
  · rw [hn]; rfl
  · rw [hf]; rfl
  · rw [hr]; rfl
  · have hcode : hexValue (hexDigit (c.toNat / 16)) * 16 + hexValue (hexDigit (c.toNat % 16))
        = c.toNat := by
      rw [hexValue_hexDigit _ (by omega), hexValue_hexDigit _ (by omega)]
      omega
    simp only [List.cons_append, List.nil_append, readKey, hcode, Char.ofNat_toNat]
  · simp [readKey, hbackslash]

theorem flatMap_keyEscape_injective :
    Function.Injective fun cs : List Char => cs.flatMap keyEscape := by
  have hne (c : Char) (s : List Char) : [] ≠ keyEscape c ++ s := by
    intro h
    have hread := readKey_keyEscape c s
    rw [← h] at hread
    cases hread
  intro cs ds h
  induction cs generalizing ds with
  | nil =>
    cases ds with
    | nil => rfl
    | cons d ds => exact absurd h (hne d _)
  | cons c cs ih =>
    cases ds with
    | nil => exact absurd h.symm (hne c _)
    | cons d ds =>
      have hread := congrArg readKey h
      simp only [List.flatMap_cons, readKey_keyEscape] at hread
      obtain ⟨rfl, hrest⟩ := Prod.mk.inj (Option.some.inj hread)
      rw [ih hrest]

/-- **Different texts have different key forms.** -/
theorem quoteKey_injective : Function.Injective quoteKey := fun _ _ h =>
  flatMap_keyEscape_injective (List.append_cancel_right (List.cons.inj h).2)

end Recurrence.Text
