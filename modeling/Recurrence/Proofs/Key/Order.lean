import Mathlib.Data.Char
import Mathlib.Data.List.Lex
import Mathlib.Data.Prod.Lex
import Recurrence.Key.Encoding

/-!
# The order of a map's entries

A map is written with its entries sorted. Entries are compared in the lexicographic order of pairs
of texts, and texts in the lexicographic order of characters. That order is linear, so a sorted list
is fixed by what is in it, and the text of a map does not depend on the order in which its entries
came.
-/

namespace Recurrence.Canonical

theorem precedes_iff_le (s t : List Char) : precedes s t = true ↔ s ≤ t := by
  induction s generalizing t with
  | nil =>
    cases t with
    | nil => simp [precedes]
    | cons d t => exact iff_of_true rfl (List.nil_lt_cons d t).le
  | cons c s ih =>
    cases t with
    | nil => exact iff_of_false Bool.false_ne_true (List.nil_lt_cons c s).not_ge
    | cons d t =>
      have hlt : c :: s < d :: t ↔ c < d ∨ c = d ∧ s < t := List.cons_lt_cons_iff
      rw [precedes, Bool.or_eq_true, Bool.and_eq_true, decide_eq_true_eq, beq_iff_eq, ih,
        le_iff_lt_or_eq, le_iff_lt_or_eq, hlt, List.cons.injEq]
      tauto

theorem Entry.precedes_iff_le (e f : Entry) : e.precedes f = true ↔ toLex e ≤ toLex f := by
  rw [Prod.Lex.toLex_le_toLex]
  unfold Entry.precedes
  split
  case isTrue heq => simp [heq, Canonical.precedes_iff_le]
  case isFalse hne => simp [hne, Canonical.precedes_iff_le, le_iff_lt_or_eq (a := e.1)]

theorem Entry.precedes_trans (e f g : Entry) (hef : e.precedes f = true)
    (hfg : f.precedes g = true) : e.precedes g = true := by
  rw [Entry.precedes_iff_le] at *
  exact hef.trans hfg

theorem Entry.precedes_total (e f : Entry) : (e.precedes f || f.precedes e) = true := by
  rw [Bool.or_eq_true, Entry.precedes_iff_le, Entry.precedes_iff_le]
  exact le_total _ _

theorem Entry.precedes_antisymm (e f : Entry) (hef : e.precedes f = true)
    (hfe : f.precedes e = true) : e = f := by
  rw [Entry.precedes_iff_le] at hef hfe
  exact toLex.injective (le_antisymm hef hfe)

/-- **The order in which the entries of a map came does not matter.** -/
theorem mapText_perm {es fs : List Entry} (h : es.Perm fs) : mapText es = mapText fs := by
  have hsorted (es : List Entry) :=
    List.pairwise_mergeSort Entry.precedes_trans Entry.precedes_total es
  have hperm : (es.mergeSort Entry.precedes).Perm (fs.mergeSort Entry.precedes) :=
    (List.mergeSort_perm es _).trans (h.trans (List.mergeSort_perm fs _).symm)
  have hsame : es.mergeSort Entry.precedes = fs.mergeSort Entry.precedes :=
    hperm.eq_of_pairwise (fun e f _ _ => Entry.precedes_antisymm e f) (hsorted es) (hsorted fs)
  rw [mapText, mapText, hsame]

end Recurrence.Canonical
