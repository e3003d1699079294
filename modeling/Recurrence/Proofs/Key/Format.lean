import Mathlib.Data.Bool.AllAny
import Recurrence.Key.Encoding
import Recurrence.Proofs.Decimal.Double
import Recurrence.Proofs.Text.Quoted

/-!
# Formats that can be read

What keys rely on when texts are quoted and numbers are written is little, and `Format.Readable`
says all of it: quoted texts end where they seem to, different texts and numbers look different, and
a number has the characters of numbers, among them one that no whole number has. Which characters
are escaped that need not be, from which power of ten on a number has an exponent and whether that
has a plus sign are not in it. So JSON can be read in any layout with the usual signs
(`Format.readable_of_layout`), and the format of keys is one of these.
-/

namespace Recurrence.Canonical

open Decimal

/-- What keys rely on. -/
structure Format.Readable (f : Format) : Prop where
  /-- A quoted text has a quote at each end, and none inside that is not escaped. -/
  quote_escaped : ∀ cs, ∃ inside, Text.Escaped inside ∧ f.quote cs = '"' :: (inside ++ ['"'])
  quote_injective : Function.Injective f.quote
  number_injective : ∀ x y : Double, x.val.IsFinite → y.val.IsFinite →
    f.number x.val = f.number y.val → x = y
  number_chars : ∀ x : Double, x.val.IsFinite → ∀ c ∈ f.number x.val,
    c.isDigit = true ∨ c ∈ ['.', 'e', 'E', '+', '-']
  /-- A floating-point number has a point or an exponent. -/
  number_mark : ∀ x : Double, x.val.IsFinite → ∃ c ∈ f.number x.val, c ∈ ['.', 'e', 'E']

/-- **JSON can be read**, whichever numbers are written with a power of ten. -/
theorem Format.readable_of_layout {l : Layout} (hl : l.UsualSigns) :
    Format.Readable ⟨Text.quoteKey, l.chars⟩ where
  quote_escaped := Text.exists_quoteKey
  quote_injective := Text.quoteKey_injective
  number_injective _ _ := hl.chars_injective
  number_chars x hx c hc := by
    have hmarks : ∀ c ∈ ['.', 'e', '+', '-'], c ∈ ['.', 'e', 'E', '+', '-'] :=
      List.all_iff_forall_prop.mp (by decide)
    exact (hl.mem_chars hx hc).imp_right (hmarks c)
  number_mark x hx := by
    rcases Binary.exists_mark (l := l) hx with h | h
    · exact ⟨'.', h, by decide⟩
    · exact ⟨'e', h, by decide⟩

theorem Format.json_readable : Format.json.Readable := Format.readable_of_layout (.inr rfl)

/-- The characters of numbers, and of the words for what is not finite. -/
def Numeric (c : Char) : Prop := c.isDigit = true ∨ c ∈ ".eE+-NaInfity".toList

instance : DecidablePred Numeric := fun c => inferInstanceAs (Decidable (_ ∨ c ∈ _))

namespace Format.Readable

variable {f : Format} (hf : f.Readable)
include hf

/-- **Texts that begin with quoted texts agree in them and in what follows.** -/
theorem quote_append_inj {cs ds r r' : List Char} (h : f.quote cs ++ r = f.quote ds ++ r') :
    cs = ds ∧ r = r' := by
  obtain ⟨inside, hinside, hcs⟩ := hf.quote_escaped cs
  obtain ⟨inside', hinside', hds⟩ := hf.quote_escaped ds
  rw [hcs, hds] at h
  simp only [List.cons_append, List.append_assoc, List.nil_append] at h
  obtain ⟨heq, hrest⟩ := hinside.append_inj hinside' (List.cons.inj h).2
  exact ⟨hf.quote_injective (by rw [hcs, hds, heq]), hrest⟩

/-! ## Floating-point numbers -/

theorem float_numeric (x : Double) : ∀ c ∈ f.float x.val, Numeric c := by
  have hmarks : ∀ c ∈ ['.', 'e', 'E', '+', '-'], c ∈ ".eE+-NaInfity".toList :=
    List.all_iff_forall_prop.mp (by decide)
  obtain ⟨b, hb⟩ := x
  cases b with
  | nan => exact List.all_iff_forall_prop.mp (by decide : keyLayout.nan.all (Numeric ·) = true)
  | infinite =>
    have hword : ∀ c ∈ keyLayout.infinity, Numeric c := List.all_iff_forall_prop.mp (by decide)
    intro c hc
    rcases mem_signed hc with rfl | hc
    · decide
    · exact hword c hc
  | zero | finite =>
    exact fun c hc => (hf.number_chars ⟨_, hb⟩ trivial c hc).imp_right (hmarks c)

/-- A floating-point number is not written like a whole number. -/
theorem float_mark (x : Double) : ∃ c ∈ f.float x.val, c.isDigit = false ∧ c ≠ '-' := by
  have hmarks : ∀ c ∈ ['.', 'e', 'E'], c.isDigit = false ∧ c ≠ '-' :=
    List.all_iff_forall_prop.mp (by decide)
  obtain ⟨b, hb⟩ := x
  cases b with
  | nan => exact ⟨'N', (by decide : 'N' ∈ keyLayout.nan), by decide⟩
  | infinite => exact ⟨'I', mem_signed_of_mem (by decide), by decide⟩
  | zero | finite =>
    obtain ⟨c, hc, hmark⟩ := hf.number_mark ⟨_, hb⟩ trivial
    exact ⟨c, hc, hmarks c hmark⟩

/-- The words for what is not finite have capital letters that no number has. -/
theorem isFinite_iff (x : Double) :
    x.val.IsFinite ↔ 'N' ∉ f.float x.val ∧ 'I' ∉ f.float x.val := by
  obtain ⟨b, hb⟩ := x
  cases b with
  | nan => exact iff_of_false id fun h => h.1 (by decide : 'N' ∈ keyLayout.nan)
  | infinite => exact iff_of_false id fun h => h.2 (mem_signed_of_mem (by decide))
  | zero | finite =>
    have hchars := hf.number_chars ⟨_, hb⟩ trivial
    exact iff_of_true trivial
      ⟨fun h => absurd (hchars _ h) (by decide), fun h => absurd (hchars _ h) (by decide)⟩

/-- **Different numbers have different texts.** -/
theorem float_injective {x y : Double} (h : f.float x.val = f.float y.val) : x = y := by
  -- the words are ours, and the rest is up to the format
  have hfinite : x.val.IsFinite ↔ y.val.IsFinite := by
    rw [hf.isFinite_iff, hf.isFinite_iff, h]
  obtain ⟨a, ha⟩ := x
  obtain ⟨b, hb⟩ := y
  cases a <;> cases b
  case nan.nan => rfl
  case infinite.infinite =>
    obtain ⟨rfl, -⟩ := signed_injective (by decide) (by decide) h
    rfl
  case nan.infinite negative => cases negative <;> cases h
  case infinite.nan negative => cases negative <;> cases h
  case zero.zero | zero.finite | finite.zero | finite.finite =>
    exact hf.number_injective _ _ trivial trivial h
  case nan.zero | nan.finite | infinite.zero | infinite.finite => exact (hfinite.mpr trivial).elim
  case zero.nan | zero.infinite | finite.nan | finite.infinite => exact (hfinite.mp trivial).elim

end Format.Readable

end Recurrence.Canonical
