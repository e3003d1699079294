import Recurrence.Proofs.Key.Format
import Recurrence.Proofs.Key.NormalForm

/-!
# A canonical text is read in one way

The text of a map is its entries in a row, and the keys of a map may be maps again, so a text has to
be cut in the right places. In a format that can be read, a scalar has no delimiter in it and one
behind it, a quoted text ends with its last quote, and a list or a map ends with its bracket: the
beginning of a text says where it ends. The induction is over normal forms, and what it carries is
`Reads`: texts that begin alike, whatever follows them, are texts of the same, and the same follows.
-/

namespace Recurrence

open Canonical Decimal

/-- A character that neither quotes nor structures. -/
def Plain (c : Char) : Prop := c ∉ ['"', ',', ':', '[', ']', '\x7b', '\x7d']

instance : DecidablePred Plain := fun c => inferInstanceAs (Decidable (c ∉ _))

/-- What may follow a text: a delimiter, or nothing. -/
def Delimited (rest : List Char) : Prop := ∀ c ∈ rest.head?, ¬ Plain c

theorem delimited_cons {c : Char} {rest : List Char} (h : ¬ Plain c) : Delimited (c :: rest) := by
  intro d hd
  rw [List.head?_cons, Option.mem_some_iff] at hd
  exact hd ▸ h

theorem delimited_nil : Delimited [] := nofun

/-- Plain characters reach up to the first delimiter. -/
theorem append_inj_of_plain {s t r r' : List Char} (hs : ∀ c ∈ s, Plain c) (ht : ∀ c ∈ t, Plain c)
    (hr : Delimited r) (hr' : Delimited r') (h : s ++ r = t ++ r') : s = t ∧ r = r' := by
  induction s generalizing t with
  | nil =>
    cases t with
    | nil => exact ⟨rfl, h⟩
    | cons d t =>
      rw [List.nil_append] at h
      exact absurd (ht d List.mem_cons_self) (hr d (by rw [h]; rfl))
  | cons c s ih =>
    cases t with
    | nil =>
      rw [List.nil_append] at h
      exact absurd (hs c List.mem_cons_self) (hr' c (by rw [← h]; rfl))
    | cons d t =>
      obtain ⟨rfl, htail⟩ := List.cons.inj h
      rw [List.forall_mem_cons] at hs ht
      obtain ⟨rfl, hrest⟩ := ih hs.2 ht.2 htail
      exact ⟨rfl, hrest⟩

namespace NormalForm

/-! ## Scalars -/

theorem plain_of_numeric {c : Char} (h : Numeric c) : Plain c := by
  have hmarks : ∀ d ∈ ['"', ',', ':', '[', ']', '\x7b', '\x7d'],
      d.isDigit = false ∧ d ∉ ".eE+-NaInfity".toList := List.all_iff_forall_prop.mp (by decide)
  intro hc
  obtain ⟨hdigit, hletter⟩ := hmarks c hc
  rcases h with h | h
  · exact absurd (hdigit.symm.trans h) Bool.false_ne_true
  · exact hletter h

theorem numeric_int {n : ℤ} : ∀ c ∈ intChars n, Numeric c := by
  intro c hc
  rcases mem_intChars hc with h | rfl
  · exact .inl h
  · exact .inr (by decide)

section Scalars

variable {f : Format} (hf : f.Readable)
include hf

theorem Scalar.plain (s : Scalar) : ∀ c ∈ s.chars f, Plain c := by
  cases s with
  | null => exact List.all_iff_forall_prop.mp (by decide : "null".toList.all (Plain ·) = true)
  | bool b =>
    cases b with
    | false =>
      exact List.all_iff_forall_prop.mp (by decide : "false".toList.all (Plain ·) = true)
    | true => exact List.all_iff_forall_prop.mp (by decide : "true".toList.all (Plain ·) = true)
  | int n => exact fun c hc => plain_of_numeric (numeric_int c hc)
  | float x => exact fun c hc => plain_of_numeric (hf.float_numeric x c hc)

theorem Scalar.chars_ne_nil (s : Scalar) : s.chars f ≠ [] := by
  cases s with
  | null => exact List.cons_ne_nil _ _
  | bool b => cases b <;> exact List.cons_ne_nil _ _
  | int n => exact intChars_ne_nil n
  | float x =>
    obtain ⟨c, hc, -⟩ := hf.float_mark x
    exact List.ne_nil_of_mem hc

theorem int_ne_float (n : ℤ) (x : Double) : intChars n ≠ f.float x.val := by
  intro h
  obtain ⟨c, hc, hdigit, hsign⟩ := hf.float_mark x
  rw [← h] at hc
  rcases mem_intChars hc with hc | hc
  · exact absurd (hdigit.symm.trans hc) Bool.false_ne_true
  · exact hsign hc

/-- **Different scalars have different texts.** -/
theorem Scalar.chars_injective : Function.Injective (Scalar.chars f) := by
  -- each word has a letter that no number has
  have hnull {cs : List Char} (h : ∀ c ∈ cs, Numeric c) : "null".toList ≠ cs := by
    rintro rfl
    exact absurd (h 'l' (by decide)) (by decide)
  have hbool (b : Bool) {cs : List Char} (h : ∀ c ∈ cs, Numeric c) :
      (if b then "true".toList else "false".toList) ≠ cs := by
    rintro rfl
    cases b with
    | false => exact absurd (h 's' (by decide)) (by decide)
    | true => exact absurd (h 'r' (by decide)) (by decide)
  have hwords : ∀ b : Bool, "null".toList ≠ if b then "true".toList else "false".toList := by
    decide
  intro s t h
  cases s <;> cases t
  case null.null => rfl
  case bool.bool a b =>
    have : ∀ a b : Bool, (if a then "true".toList else "false".toList)
        = (if b then "true".toList else "false".toList) → a = b := by decide
    rw [this a b h]
  case int.int => rw [intChars_injective h]
  case float.float => rw [hf.float_injective h]
  case null.bool b => exact absurd h (hwords b)
  case bool.null b => exact absurd h.symm (hwords b)
  case int.float n x => exact absurd h (int_ne_float hf n x)
  case float.int x n => exact absurd h.symm (int_ne_float hf n x)
  case null.int => exact absurd h (hnull numeric_int)
  case int.null => exact absurd h.symm (hnull numeric_int)
  case null.float x => exact absurd h (hnull (hf.float_numeric x))
  case float.null x => exact absurd h.symm (hnull (hf.float_numeric x))
  case bool.int b _ => exact absurd h (hbool b numeric_int)
  case int.bool _ b => exact absurd h.symm (hbool b numeric_int)
  case bool.float b x => exact absurd h (hbool b (hf.float_numeric x))
  case float.bool x b => exact absurd h.symm (hbool b (hf.float_numeric x))

end Scalars

/-! ## Lists and maps -/

/-- With a comma in front of the first text too, all texts look alike. -/
theorem comma_joined (t : List Char) (ts : List (List Char)) :
    ',' :: joined (t :: ts) = (t :: ts).flatMap (',' :: ·) := by
  induction ts generalizing t with
  | nil => simp [joined, List.intercalate]
  | cons u ts ih =>
    rw [List.flatMap_cons, ← ih u]
    simp [joined, List.intercalate]

/-- Whatever follows it, the text of `a` is read in one way, up to `R`. -/
def Reads {α : Type} (text : α → List Char) (R : α → α → Prop) (a : α) : Prop :=
  ∀ b r r', Delimited r → Delimited r' → text a ++ r = text b ++ r' → R a b ∧ r = r'

section Joined

variable {α : Type} {R : α → α → Prop} {text : α → List Char} {close : Char}

/-- The parts behind the first one, up to the closing mark. -/
theorem rest_append_inj {as bs : List α} {r r' : List Char} (hclose : ¬ Plain close)
    (hcomma : close ≠ ',')
    (hread : ∀ a ∈ as, Reads text R a)
    (h : (as.map text).flatMap (',' :: ·) ++ close :: r
      = (bs.map text).flatMap (',' :: ·) ++ close :: r') :
    List.Forall₂ R as bs ∧ r = r' := by
  have hdelimited (cs : List α) (r : List Char) :
      Delimited ((cs.map text).flatMap (',' :: ·) ++ close :: r) := by
    cases cs with
    | nil => exact delimited_cons hclose
    | cons => exact delimited_cons (by decide)
  induction as generalizing bs with
  | nil =>
    cases bs with
    | nil => exact ⟨.nil, (List.cons.inj h).2⟩
    | cons => exact absurd (List.cons.inj h).1 hcomma
  | cons a as ih =>
    cases bs with
    | nil => exact absurd (List.cons.inj h).1.symm hcomma
    | cons b bs =>
      rw [List.forall_mem_cons] at hread
      simp only [List.map_cons, List.flatMap_cons, List.cons_append, List.append_assoc] at h
      obtain ⟨hab, hrest⟩ := hread.1 b _ _ (hdelimited as r) (hdelimited bs r') (List.cons.inj h).2
      obtain ⟨hparts, hr⟩ := ih hread.2 hrest
      exact ⟨.cons hab hparts, hr⟩

/-- **Parts between commas, up to the closing mark.** -/
theorem joined_append_inj {as bs : List α} {r r' : List Char} (hclose : ¬ Plain close)
    (hcomma : close ≠ ',') (hopen : ∀ a r r', text a ++ r ≠ close :: r')
    (hread : ∀ a ∈ as, Reads text R a)
    (h : joined (as.map text) ++ close :: r = joined (bs.map text) ++ close :: r') :
    List.Forall₂ R as bs ∧ r = r' := by
  have hfirst (a : α) (as : List α) (s t : List Char) :
      joined ((a :: as).map text) ++ s ≠ close :: t := by
    intro h
    have := congrArg (',' :: ·) h
    simp only [List.map_cons, ← List.cons_append, comma_joined, List.flatMap_cons] at this
    rw [List.cons_append, List.cons_append, List.append_assoc] at this
    exact hopen a _ _ (List.cons.inj this).2
  cases as with
  | nil =>
    cases bs with
    | nil => exact ⟨.nil, (List.cons.inj h).2⟩
    | cons b bs => exact absurd h.symm (hfirst b bs _ _)
  | cons a as =>
    cases bs with
    | nil => exact absurd h (hfirst a as _ _)
    | cons b bs =>
      have := congrArg (',' :: ·) h
      simp only [List.map_cons, ← List.cons_append, comma_joined] at this
      exact rest_append_inj hclose hcomma hread this

end Joined

section Texts

variable {f : Format}

/-- The mark that opens a text, if it is not the text of a scalar. -/
def opening : NormalForm → Option Char
  | .scalar _ => none
  | .text _ => some '"'
  | .list _ => some '['
  | .map _ => some '\x7b'

theorem opening_eq (hf : f.Readable) (a : NormalForm) (r : List Char) :
    a.opening = (a.chars f ++ r).head?.filter (fun c => ¬ Plain c) := by
  cases a with
  | scalar s =>
    obtain ⟨c, cs, hs⟩ := List.exists_cons_of_ne_nil (s.chars_ne_nil hf)
    have hplain : Plain c := s.plain hf c (hs ▸ List.mem_cons_self)
    rw [opening, chars, hs, List.cons_append, List.head?_cons]
    simp [Option.filter, hplain]
  | text s =>
    obtain ⟨inside, -, hquote⟩ := hf.quote_escaped s.toList
    rw [opening, chars, hquote]
    rfl
  | list | map => rfl

theorem opening_eq_of_append_eq (hf : f.Readable) {a b : NormalForm} {r r' : List Char}
    (h : a.chars f ++ r = b.chars f ++ r') : a.opening = b.opening := by
  rw [opening_eq hf a r, h, ← opening_eq hf]

/-- No text begins with a closing bracket. -/
theorem append_ne_close (hf : f.Readable) (a : NormalForm) {close : Char}
    (h : close ∈ [']', '\x7d']) (r r' : List Char) : a.chars f ++ r ≠ close :: r' := by
  intro heq
  have hopening := opening_eq hf a r
  have hmark : ∀ c ∈ [']', '\x7d'], ¬ Plain c ∧ c ∉ ['"', '[', '\x7b'] :=
    List.all_iff_forall_prop.mp (by decide)
  obtain ⟨hplain, hne⟩ := hmark close h
  rw [heq, List.head?_cons] at hopening
  simp only [Option.filter, hplain, not_false_eq_true, decide_true, if_true] at hopening
  cases a <;> cases hopening <;> exact hne (by decide)

/-- An entry as it stands in a map. -/
def entryChars (f : Format) (e : NormalForm × NormalForm) : List Char := entryText (texts f e)

/-- Entries in the order in which they stand in a map. -/
def sorted (f : Format) (es : List (NormalForm × NormalForm)) : List (NormalForm × NormalForm) :=
  es.mergeSort fun d e => (texts f d).precedes (texts f e)

theorem chars_map (es : List (NormalForm × NormalForm)) :
    (map es).chars f = '\x7b' :: (joined ((sorted f es).map (entryChars f)) ++ ['\x7d']) := by
  rw [chars, entriesChars_eq_map, mapText, sorted,
    ← List.map_mergeSort (s := Entry.precedes) (f := texts f) (fun _ _ _ _ => rfl), List.map_map]
  rfl

theorem coe_sorted (es : List (NormalForm × NormalForm)) :
    (sorted f es : Multiset (NormalForm × NormalForm)) = es :=
  Multiset.coe_eq_coe.mpr (List.mergeSort_perm es _)

theorem entryChars_append (e : NormalForm × NormalForm) (r : List Char) :
    entryChars f e ++ r = e.1.chars f ++ ':' :: (e.2.chars f ++ r) := by
  rw [entryChars, entryText, texts, List.append_assoc, List.cons_append]

theorem rel_of_forall₂ {α : Type} {R : α → α → Prop} {as bs : List α} (h : List.Forall₂ R as bs) :
    Multiset.Rel R as bs := by
  induction h with
  | nil => exact .zero
  | cons hab _ ih => exact .cons hab ih

/-- **A text is read in one way.** -/
theorem reads_chars (hf : f.Readable) (a : NormalForm) : Reads (chars f) Same a := by
  induction a with
  | scalar s =>
    intro b r r' hr hr' h
    have hopening := opening_eq_of_append_eq hf h
    cases b with
    | scalar t =>
      obtain ⟨hchars, hrest⟩ := append_inj_of_plain (s.plain hf) (t.plain hf) hr hr' h
      obtain rfl := Scalar.chars_injective hf hchars
      exact ⟨.scalar s, hrest⟩
    | text | list | map => cases hopening
  | text s =>
    intro b r r' hr hr' h
    have hopening := opening_eq_of_append_eq hf h
    cases b with
    | text t =>
      obtain ⟨hchars, hrest⟩ := hf.quote_append_inj h
      obtain rfl := String.toList_injective hchars
      exact ⟨.text s, hrest⟩
    | scalar | list | map => cases hopening
  | list as ih =>
    intro b r r' hr hr' h
    have hopening := opening_eq_of_append_eq hf h
    cases b with
    | list bs =>
      simp only [chars, itemsChars_eq_map, listText, List.cons_append, List.append_assoc,
        List.nil_append] at h
      obtain ⟨hitems, hrest⟩ := joined_append_inj (by decide) (by decide)
        (append_ne_close hf · (by decide)) ih (List.cons.inj h).2
      exact ⟨.list hitems, hrest⟩
    | scalar | text | map => cases hopening
  | map es ih =>
    intro b r r' hr hr' h
    have hopening := opening_eq_of_append_eq hf h
    cases b with
    | map fs =>
      -- the colon ends the key, and the value ends where the entry does
      have hread : ∀ d ∈ sorted f es, Reads (entryChars f) SameEntry d := by
        intro d hd e r r' hr hr' h
        obtain ⟨ihkey, ihvalue⟩ := ih d (List.mem_mergeSort.mp hd)
        rw [entryChars_append, entryChars_append] at h
        have hcolon (r : List Char) : Delimited (':' :: r) := delimited_cons (by decide)
        obtain ⟨hkey, h⟩ := ihkey e.1 _ _ (hcolon _) (hcolon _) h
        obtain ⟨hvalue, hrest⟩ := ihvalue e.2 r r' hr hr' (List.cons.inj h).2
        exact ⟨.intro hkey hvalue, hrest⟩
      have hopen (e : NormalForm × NormalForm) (r r' : List Char) :
          entryChars f e ++ r ≠ '\x7d' :: r' := by
        rw [entryChars_append]
        exact append_ne_close hf e.1 (by decide) _ _
      simp only [chars_map, List.cons_append, List.append_assoc, List.nil_append] at h
      obtain ⟨hentries, hrest⟩ := joined_append_inj (by decide) (by decide) hopen hread
        (List.cons.inj h).2
      have hrel := rel_of_forall₂ hentries
      rw [coe_sorted, coe_sorted] at hrel
      exact ⟨.map hrel, hrest⟩
    | scalar | text | list => cases hopening

/-- The order of entries does not show. -/
theorem chars_eq_of_same (a : NormalForm) : ∀ b : NormalForm, a.Same b → a.chars f = b.chars f := by
  induction a with
  | scalar s =>
    rintro _ ⟨⟩
    rfl
  | text s =>
    rintro _ ⟨⟩
    rfl
  | list as ih =>
    intro b h
    cases h with
    | list hitems =>
      rw [chars, chars, itemsChars_eq_map, itemsChars_eq_map]
      congr 1
      induction hitems with
      | nil => rfl
      | cons hab _ ihrest =>
        rw [List.forall_mem_cons] at ih
        rw [List.map_cons, List.map_cons, ih.1 _ hab, ihrest ih.2]
  | map es ih =>
    intro b h
    cases h with
    | @map _ fs hentries =>
      have htexts : Multiset.Rel (fun d e => texts f d = texts f e) es fs :=
        hentries.mono fun d hd e _ ⟨hkey, hvalue⟩ =>
          Prod.ext ((ih d hd).1 e.1 hkey) ((ih d hd).2 e.2 hvalue)
      rw [← Multiset.rel_map (p := Eq), Multiset.rel_eq, Multiset.map_coe, Multiset.map_coe,
        Multiset.coe_eq_coe] at htexts
      rw [chars, chars, entriesChars_eq_map, entriesChars_eq_map]
      exact mapText_perm htexts

/-- **Texts are equal exactly for the same normal forms.** -/
theorem same_iff_chars_eq (hf : f.Readable) (a b : NormalForm) :
    a.Same b ↔ a.chars f = b.chars f := by
  refine ⟨chars_eq_of_same a b, fun h => ?_⟩
  exact (reads_chars hf a b [] [] delimited_nil delimited_nil (by rw [h])).1

theorem same_map_of_perm {es fs : List (NormalForm × NormalForm)} (h : es.Perm fs) :
    (map es).Same (map fs) := by
  rw [same_iff_chars_eq Format.json_readable, chars, chars, entriesChars_eq_map,
    entriesChars_eq_map]
  exact mapText_perm (h.map _)

end Texts

end NormalForm

/--
**Two arguments are the same key exactly when they have the same normal form.** It is so for keys in
any format that can be read, and the format of keys is one of these.
-/
theorem Key.ofArgument_eq_iff_same :
    Format.json.Readable
    ∧ ∀ f : Format, f.Readable → ∀ (v w : Argument) (k l : Key), Key.ofArgument v f = .ok k →
      Key.ofArgument w f = .ok l → (k = l ↔ v.normal.Same w.normal) := by
  refine ⟨Format.json_readable, fun f hf v w k l hv hw => ?_⟩
  obtain ⟨s, hs, hk⟩ := bind_eq_ok.mp hv
  obtain ⟨t, ht, hl⟩ := bind_eq_ok.mp hw
  obtain rfl := Except.ok.inj hk
  obtain rfl := Except.ok.inj hl
  rw [NormalForm.same_iff_chars_eq hf, ← v.encode_eq_chars hs, ← w.encode_eq_chars ht,
    Key.canonical.injEq]
  exact String.ofList_inj

/-- A structure with a number of 32 bits, and a map in another order with one of 64 bits. -/
theorem Key.ofArgument_eq_iff_same_point :
    ∃ k l, Key.ofArgument (.struct "Point" [
          .mk "path" (.tuple [.int 1, .present (.newtypeVariant "Turn" (.char 'a'))]),
          .mk "weight" (.float32 0x3fc00000)]) = .ok k
      ∧ Key.ofArgument (.ofEntries [
          (.text "weight", .float64 0x3ff8000000000000),
          (.unitVariant "path", .seq [.int 1, .ofEntries [(.text "Turn", .text "a")]])]) = .ok l
      ∧ k = l := by
  have hkeys {v w : Argument} {k l : Key} (hv : Key.ofArgument v = .ok k)
      (hw : Key.ofArgument w = .ok l) (h : v.normal.Same w.normal) :
      Key.ofArgument v = .ok k ∧ Key.ofArgument w = .ok l ∧ k = l :=
    ⟨hv, hw, (Key.ofArgument_eq_iff_same.2 _ Key.ofArgument_eq_iff_same.1 _ _ _ _ hv hw).mpr h⟩
  have hweight : Decimal.Double.ofBits (Decimal.widen 0x3fc00000) = .ofBits 0x3ff8000000000000 :=
    Subtype.ext (by decide)
  have hletter : String.singleton 'a' = "a" := by decide
  refine ⟨_, _, hkeys rfl rfl ?_⟩
  simp only [Argument.normal, Argument.normalFields, Argument.normalItems, Argument.ofEntries,
    Argument.completed, List.flatMap_cons, List.flatMap_nil, List.cons_append, List.nil_append,
    hweight, hletter]
  exact NormalForm.same_map_of_perm (.swap _ _ _)

end Recurrence
