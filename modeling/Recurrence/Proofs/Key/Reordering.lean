import Mathlib.Data.List.Flatten
import Mathlib.Logic.Relation
import Recurrence.Proofs.Key.UniqueReading

/-!
# Arguments that differ in the order of entries

Entries of maps and fields of structures may change places anywhere in an argument: inside keys and
values, items and variants, and with several entries under one key. `Reorders` is one such change at
one place, and `Reordered` is what any number of them can do.

A change shows neither in the text of an argument nor in whether there is a text. Which failure is
met first may well change, so attempts are compared up to the failure (`Alike`). By induction on the
place a change comes out alike there, and what is around a place does to both sides the same. At the
place itself the entries are a list of attempts in another order, and what they come to is sorted.
-/

namespace Recurrence

open Canonical

/-! ## Attempts that come out alike -/

/-- Both fail, or both succeed with results that are related. -/
inductive Alike {α : Type} (R : α → α → Prop) :
    Except EncodeError α → Except EncodeError α → Prop
  | error (e f : EncodeError) : Alike R (.error e) (.error f)
  | ok {a b : α} : R a b → Alike R (.ok a) (.ok b)

namespace Alike

variable {α β : Type} {R : α → α → Prop} {S : β → β → Prop} {x y z : Except EncodeError α}

theorem refl (hR : ∀ a, R a a) (x : Except EncodeError α) : Alike R x x := by
  cases x with
  | error e => exact .error e e
  | ok a => exact .ok (hR a)

theorem trans (hR : ∀ a b c, R a b → R b c → R a c) (h : Alike R x y) (h' : Alike R y z) :
    Alike R x z := by
  cases h with
  | error e f =>
    cases h' with
    | error _ g => exact .error e g
  | ok h =>
    cases h' with
    | ok h' => exact .ok (hR _ _ _ h h')

/-- What goes on alike from results that are alike comes out alike. -/
theorem bind {f g : α → Except EncodeError β} (h : Alike R x y)
    (hnext : ∀ a b, R a b → Alike S (f a) (g b)) : Alike S (x >>= f) (y >>= g) := by
  cases h with
  | error e f => exact .error e f
  | ok h => exact hnext _ _ h

/-- What is done first does not matter if it is the same. -/
theorem after (x : Except EncodeError α) {f g : α → Except EncodeError β}
    (h : ∀ a, Alike S (f a) (g a)) : Alike S (x >>= f) (x >>= g) :=
  (refl (fun _ => rfl) x).bind fun a _ heq => heq ▸ h a

/-- What is done next does not matter if it is the same. -/
theorem before {x y : Except EncodeError α} (h : Alike Eq x y) (f : α → Except EncodeError β) :
    Alike Eq (x >>= f) (y >>= f) :=
  h.bind fun a _ heq => heq ▸ refl (fun _ => rfl) (f a)

/-- The same attempts in another order come to the same results in another order. -/
theorem mapM_perm {f : α → Except EncodeError β} {as bs : List α} (h : as.Perm bs) :
    Alike List.Perm (as.mapM f) (bs.mapM f) := by
  induction h with
  | nil => exact .ok .nil
  | cons a _ ih =>
    rw [List.mapM_cons, List.mapM_cons]
    exact after _ fun b => ih.bind fun _ _ h => .ok (h.cons b)
  | swap a b rest =>
    simp only [List.mapM_cons]
    cases f a with
    | error e => cases f b <;> exact .error _ _
    | ok a' =>
      cases f b with
      | error e => exact .error _ _
      | ok b' =>
        cases rest.mapM f with
        | error e => exact .error _ _
        | ok rest' => exact .ok (.swap a' b' rest')
  | trans _ _ ih ih' => exact ih.trans (fun _ _ _ => List.Perm.trans) ih'

end Alike

namespace Argument

/-! ## Changing places -/

/-- The parts by which a map is handed an entry. There may be several keys, of which the last one
counts. -/
def entryParts (e : List Argument × Argument) : List Part := e.1.map .key ++ [.value e.2]

/-- Entries of one map, or fields of one structure, change places. -/
inductive Reorders : Argument → Argument → Prop
  | map {es fs : List (List Argument × Argument)} (rest : List Part) : es.Perm fs →
      Reorders (.map (es.flatMap entryParts ++ rest)) (.map (fs.flatMap entryParts ++ rest))
  | struct (name : String) {fs gs : List Field} : fs.Perm gs →
      Reorders (.struct name fs) (.struct name gs)
  | structVariant (variant : String) {fs gs : List Field} : fs.Perm gs →
      Reorders (.structVariant variant fs) (.structVariant variant gs)
  | inPresent {a b : Argument} : Reorders a b → Reorders (.present a) (.present b)
  | inNewtypeStruct (name : String) {a b : Argument} : Reorders a b →
      Reorders (.newtypeStruct name a) (.newtypeStruct name b)
  | inNewtypeVariant (variant : String) {a b : Argument} : Reorders a b →
      Reorders (.newtypeVariant variant a) (.newtypeVariant variant b)
  | inSeq (front back : List Argument) {a b : Argument} : Reorders a b →
      Reorders (.seq (front ++ a :: back)) (.seq (front ++ b :: back))
  | inTuple (front back : List Argument) {a b : Argument} : Reorders a b →
      Reorders (.tuple (front ++ a :: back)) (.tuple (front ++ b :: back))
  | inTupleStruct (name : String) (front back : List Argument) {a b : Argument} : Reorders a b →
      Reorders (.tupleStruct name (front ++ a :: back)) (.tupleStruct name (front ++ b :: back))
  | inTupleVariant (variant : String) (front back : List Argument) {a b : Argument} :
      Reorders a b → Reorders (.tupleVariant variant (front ++ a :: back))
        (.tupleVariant variant (front ++ b :: back))
  | inKey (front back : List Part) {a b : Argument} : Reorders a b →
      Reorders (.map (front ++ .key a :: back)) (.map (front ++ .key b :: back))
  | inValue (front back : List Part) {a b : Argument} : Reorders a b →
      Reorders (.map (front ++ .value a :: back)) (.map (front ++ .value b :: back))
  | inField (name field : String) (front back : List Field) {a b : Argument} : Reorders a b →
      Reorders (.struct name (front ++ .mk field a :: back))
        (.struct name (front ++ .mk field b :: back))
  | inVariantField (variant field : String) (front back : List Field) {a b : Argument} :
      Reorders a b → Reorders (.structVariant variant (front ++ .mk field a :: back))
        (.structVariant variant (front ++ .mk field b :: back))

/-- Entries that are handed over one by one, a key and then its value, may change places. -/
theorem reorders_ofEntries {es fs : List (Argument × Argument)} (h : es.Perm fs) :
    Reorders (ofEntries es) (ofEntries fs) := by
  have hparts (es : List (Argument × Argument)) :
      ofEntries es = .map ((es.map fun e => ([e.1], e.2)).flatMap entryParts ++ []) := by
    rw [ofEntries, List.flatMap_map, List.append_nil]
    rfl
  rw [hparts, hparts]
  exact .map [] (h.map _)

/-- Changes of places at any number of places, one after the other. -/
def Reordered : Argument → Argument → Prop := Relation.ReflTransGen Reorders

/-! ## Around a change -/

variable {f : Format}

section Around

variable {a b : Argument} (h : Alike Eq (a.encode f) (b.encode f))
include h

theorem encodeItems_alike (front back : List Argument) :
    Alike Eq (encodeItems f (front ++ a :: back)) (encodeItems f (front ++ b :: back)) := by
  induction front with
  | nil => exact h.before _
  | cons c front ih => exact .after (c.encode f) fun _ => ih.before _

theorem encodeFields_alike (field : String) (front back : List Field) :
    Alike Eq (encodeFields f (front ++ .mk field a :: back))
      (encodeFields f (front ++ .mk field b :: back)) := by
  induction front with
  | nil => exact h.before _
  | cons c front ih =>
    obtain ⟨name, c⟩ := c
    exact .after (c.encode f) fun _ => ih.before _

theorem encodeParts_alike_key (waiting : Option (List Char)) (back : List Part) :
    Alike Eq (encodeParts f waiting (.key a :: back)) (encodeParts f waiting (.key b :: back)) := by
  rw [encodeParts, encodeParts]
  exact h.before _

theorem encodeParts_alike_value (waiting : Option (List Char)) (back : List Part) :
    Alike Eq (encodeParts f waiting (.value a :: back))
      (encodeParts f waiting (.value b :: back)) := by
  cases waiting with
  | none => exact .error _ _
  | some key => exact h.before _

end Around

theorem encodeParts_alike {parts parts' : List Part}
    (h : ∀ waiting, Alike Eq (encodeParts f waiting parts) (encodeParts f waiting parts'))
    (front : List Part) (waiting : Option (List Char)) :
    Alike Eq (encodeParts f waiting (front ++ parts))
      (encodeParts f waiting (front ++ parts')) := by
  induction front generalizing waiting with
  | nil => exact h waiting
  | cons part front ih =>
    cases part with
    | key k =>
      rw [List.cons_append, List.cons_append, encodeParts, encodeParts]
      exact .after (k.encode f) fun _ => ih _
    | value v =>
      cases waiting with
      | none => exact .error _ _
      | some key => exact .after (v.encode f) fun _ => (ih none).before _

/-! ## At a change -/

/-- The entry of a field. -/
def encodeField (f : Format) : Field → Except EncodeError Entry
  | .mk name a => do return (f.quote name.toList, ← a.encode f)

theorem encodeFields_eq_mapM (fields : List Field) :
    encodeFields f fields = fields.mapM (encodeField f) := by
  induction fields with
  | nil => rfl
  | cons field fields ih =>
    obtain ⟨name, a⟩ := field
    rw [encodeFields, ih, List.mapM_cons, encodeField]
    cases a.encode f <;> rfl

/-- The parts behind an entry are handed over with no key waiting. -/
theorem encodeParts_entryParts (waiting : Option (List Char)) (e : List Argument × Argument)
    (rest : List Part) :
    encodeParts f waiting (entryParts e ++ rest) = do
      let es ← encodeParts f waiting (entryParts e)
      return es ++ (← encodeParts f none rest) := by
  obtain ⟨keys, v⟩ := e
  induction keys generalizing waiting with
  | nil =>
    cases waiting with
    | none => rfl
    | some key =>
      show (v.encode f >>= _) = ((v.encode f >>= _) >>= _)
      cases v.encode f <;> rfl
  | cons k keys ih =>
    show encodeParts f waiting (.key k :: (entryParts (keys, v) ++ rest))
      = (encodeParts f waiting (.key k :: entryParts (keys, v)) >>= _)
    rw [encodeParts, encodeParts]
    cases k.encode f with
    | error e => rfl
    | ok s => exact ih (some s)

/-- Entries one by one, and then the other parts. -/
theorem encodeParts_entries (es : List (List Argument × Argument)) (rest : List Part) :
    encodeParts f none (es.flatMap entryParts ++ rest) = do
      let fs ← es.mapM fun e => encodeParts f none (entryParts e)
      return fs.flatten ++ (← encodeParts f none rest) := by
  induction es with
  | nil =>
    show encodeParts f none rest = (encodeParts f none rest >>= Except.ok)
    cases encodeParts f none rest <;> rfl
  | cons e es ih =>
    rw [List.flatMap_cons, List.append_assoc, encodeParts_entryParts, ih, List.mapM_cons]
    generalize es.mapM (fun e => encodeParts f none (entryParts e)) = entries
    generalize encodeParts f none rest = others
    cases encodeParts f none (entryParts e) with
    | error e => rfl
    | ok first =>
      cases entries with
      | error e => rfl
      | ok fs =>
        cases others with
        | error e => rfl
        | ok gs => exact congrArg Except.ok (List.append_assoc first fs.flatten gs).symm

theorem encodeFields_perm {fs gs : List Field} (h : fs.Perm gs) :
    Alike List.Perm (encodeFields f fs) (encodeFields f gs) := by
  rw [encodeFields_eq_mapM, encodeFields_eq_mapM]
  exact .mapM_perm h

theorem encodeParts_perm {es fs : List (List Argument × Argument)} (h : es.Perm fs)
    (rest : List Part) :
    Alike List.Perm (encodeParts f none (es.flatMap entryParts ++ rest))
      (encodeParts f none (fs.flatMap entryParts ++ rest)) := by
  rw [encodeParts_entries, encodeParts_entries]
  refine (Alike.mapM_perm h).bind fun gs gs' hgs => ?_
  exact .after _ fun others => .ok (hgs.flatten.append_right others)

/-- The text of a map does not depend on the order of its entries. -/
theorem mapText_alike {x y : Except EncodeError (List Entry)} (h : Alike List.Perm x y)
    (around : List Char → List Char) :
    Alike Eq (do return around (mapText (← x))) (do return around (mapText (← y))) :=
  h.bind fun _ _ hperm => .ok (congrArg around (mapText_perm hperm))

/-- **A change of places does not show in the text.** -/
theorem Reorders.encode_alike {v w : Argument} (h : Reorders v w) :
    Alike Eq (v.encode f) (w.encode f) := by
  induction h with
  | map rest hperm => exact mapText_alike (encodeParts_perm hperm rest) id
  | struct _ hperm => exact mapText_alike (encodeFields_perm hperm) id
  | structVariant variant hperm =>
    exact mapText_alike (encodeFields_perm hperm) (variantText f variant)
  | inPresent _ ih | inNewtypeStruct _ _ ih => exact ih
  | inNewtypeVariant _ _ ih => exact ih.before _
  | inSeq front back _ ih | inTuple front back _ ih | inTupleStruct _ front back _ ih
  | inTupleVariant _ front back _ ih => exact (encodeItems_alike ih front back).before _
  | inKey front back _ ih =>
    exact (encodeParts_alike (fun _ => encodeParts_alike_key ih _ back) front none).before _
  | inValue front back _ ih =>
    exact (encodeParts_alike (fun _ => encodeParts_alike_value ih _ back) front none).before _
  | inField _ field front back _ ih | inVariantField _ field front back _ ih =>
    exact (encodeFields_alike ih field front back).before _

theorem Reordered.encode_alike {v w : Argument} (h : Reordered v w) :
    Alike Eq (v.encode f) (w.encode f) := by
  induction h with
  | refl => exact .refl (fun _ => rfl) _
  | tail _ hs ih => exact ih.trans (fun _ _ _ => Eq.trans) hs.encode_alike

/-! ## Order that is kept -/

/-- The elements of an argument that is a list. -/
def elements? : Argument → Option (List Argument)
  | .seq items | .tuple items | .tupleStruct _ items | .tupleVariant _ items => some items
  | .bytes bs => some (bs.map fun b => .int b.toNat)
  | _ => none

/-- The texts of the elements, in their order. -/
def Spelled (items : List Argument) (texts : List (List Char)) : Prop :=
  List.Forall₂ (fun a t => a.encode = .ok t) items texts

theorem spelled_iff {items : List Argument} {texts : List (List Char)} :
    Spelled items texts ↔ encodeItems .json items = .ok texts := by
  constructor
  · intro h
    induction h with
    | nil => rfl
    | @cons a t items texts ht _ ih => rw [encodeItems, ht, ih]; rfl
  · intro h
    induction items generalizing texts with
    | nil =>
      cases h
      exact .nil
    | cons a items ih =>
      obtain ⟨t, ht, h⟩ := bind_eq_ok.mp h
      obtain ⟨ts, hts, h⟩ := bind_eq_ok.mp h
      cases h
      exact .cons ht (ih hts)

theorem infix_variantText (variant : String) (content : List Char) :
    content <:+: variantText .json variant content := by
  refine ⟨'\x7b' :: (Format.json.quote variant.toList ++ [':']), ['\x7d'], ?_⟩
  simp [variantText, mapText, joined, entryText]

/-- A text shows the texts of the elements, in their order. -/
theorem exists_spelled {a : Argument} {items : List Argument} {s : List Char}
    (ha : a.elements? = some items) (h : a.encode = .ok s) :
    ∃ texts, Spelled items texts ∧ listText texts <:+: s := by
  cases a <;> cases ha
  case bytes bs =>
    cases h
    refine ⟨_, ?_, List.infix_refl _⟩
    rw [Spelled, List.forall₂_map_left_iff, List.forall₂_map_right_iff]
    exact List.forall₂_same.mpr fun b _ => rfl
  case tupleVariant variant =>
    obtain ⟨texts, htexts, hs⟩ := bind_eq_ok.mp h
    cases hs
    exact ⟨texts, spelled_iff.mpr htexts, infix_variantText _ _⟩
  all_goals
    obtain ⟨texts, htexts, hs⟩ := bind_eq_ok.mp h
    cases hs
    exact ⟨texts, spelled_iff.mpr htexts, List.infix_refl _⟩

theorem normal_of_elements? {a : Argument} {items : List Argument} (h : a.elements? = some items) :
    a.normal = .list (normalItems items)
    ∨ ∃ variant, a.normal = .map [(.text variant, .list (normalItems items))] := by
  cases a <;> cases h
  case bytes bs =>
    left
    rw [normal]
    congr 1
    induction bs with
    | nil => rfl
    | cons b bs ih => exact congrArg (.scalar (.int b.toNat) :: ·) ih
  case tupleVariant variant => exact .inr ⟨variant, by rw [normal]⟩
  all_goals exact .inl (by rw [normal])

open NormalForm in
/-- Lists with the same text have the same elements, one by one. -/
theorem same_elements {a b : Argument} {as bs : List Argument} (ha : a.elements? = some as)
    (hb : b.elements? = some bs) (h : a.normal.Same b.normal) :
    List.Forall₂ Same (normalItems as) (normalItems bs) := by
  rcases normal_of_elements? ha with ha | ⟨variant, ha⟩ <;>
    rcases normal_of_elements? hb with hb | ⟨variant', hb⟩ <;> rw [ha, hb] at h
  · cases h with
    | list h => exact h
  · cases h
  · cases h
  · cases h with
    | map h =>
      rw [← Multiset.cons_coe, Multiset.rel_cons_left] at h
      obtain ⟨f, fs, ⟨-, hlist⟩, -, hf⟩ := h
      rw [Multiset.coe_singleton, Multiset.singleton_eq_cons_iff] at hf
      rw [← hf.1] at hlist
      cases hlist with
      | list h => exact h

/-- Elements with the same normal forms have the same texts. -/
theorem texts_eq {as bs : List Argument} {texts texts' : List (List Char)} (ha : Spelled as texts)
    (hb : Spelled bs texts') (h : List.Forall₂ NormalForm.Same (normalItems as) (normalItems bs)) :
    texts = texts' := by
  rw [encodeItems_eq_chars as (spelled_iff.mp ha), encodeItems_eq_chars bs (spelled_iff.mp hb),
    NormalForm.itemsChars_eq_map, NormalForm.itemsChars_eq_map]
  generalize normalItems as = items at h
  generalize normalItems bs = items' at h
  induction h with
  | nil => rfl
  | cons hsame _ ih => rw [List.map_cons, List.map_cons, ih, NormalForm.chars_eq_of_same _ _ hsame]

end Argument

open Argument in
/--
**The order of entries makes no difference, and the order of elements does.**

Two arguments that differ in the order of entries of maps and fields of structures, at any places,
both have a key, and it is the same one, or neither has one. The elements of sequences, tuples and
bytes keep their order: it is the order in which their texts stand in the text, so lists that have
the same key have elements with the same texts, one by one.
-/
theorem Key.ofArgument_reordered :
    (∀ v w, Reordered v w →
      (∃ k, Key.ofArgument v = .ok k ∧ Key.ofArgument w = .ok k)
      ∨ ∃ e f, Key.ofArgument v = .error e ∧ Key.ofArgument w = .error f)
    ∧ ∀ (v w : Argument) (items items' : List Argument) (s : List Char),
      v.elements? = some items → w.elements? = some items' → v.encode = .ok s → w.encode = .ok s →
      ∃ texts, listText texts <:+: s ∧ Spelled items texts ∧ Spelled items' texts := by
  constructor
  · intro v w h
    have hkey : Alike Eq (Key.ofArgument v) (Key.ofArgument w) := h.encode_alike.before _
    generalize Key.ofArgument v = x at hkey
    generalize Key.ofArgument w = y at hkey
    cases hkey with
    | error e f => exact .inr ⟨e, f, rfl, rfl⟩
    | ok h => exact .inl ⟨_, rfl, congrArg Except.ok h.symm⟩
  · intro v w items items' s hv hw hs hs'
    obtain ⟨texts, htexts, hinfix⟩ := exists_spelled hv hs
    obtain ⟨texts', htexts', -⟩ := exists_spelled hw hs'
    have hsame : v.normal.Same w.normal := by
      rw [NormalForm.same_iff_chars_eq Format.json_readable, ← v.encode_eq_chars hs,
        ← w.encode_eq_chars hs']
    obtain rfl := texts_eq htexts htexts' (same_elements hv hw hsame)
    exact ⟨texts, hinfix, htexts, htexts'⟩

open Argument in
/-- Two entries under one key change places, and so do the fields inside one of them. Where both
fields fail, it is the other one that fails first. -/
theorem Key.ofArgument_reordered_twins :
    (∃ k, Key.ofArgument (.ofEntries [
          (.text "k", .struct "P" [.mk "x" (.int 1), .mk "y" (.int 2)]), (.text "k", .int 7)]) = .ok k
      ∧ Key.ofArgument (.ofEntries [
          (.text "k", .int 7), (.text "k", .struct "P" [.mk "y" (.int 2), .mk "x" (.int 1)])]) = .ok k)
    ∧ (∃ e f, Key.ofArgument (.struct "P" [.mk "x" (.failing "a"), .mk "y" (.failing "b")])
          = .error e
      ∧ Key.ofArgument (.struct "P" [.mk "y" (.failing "b"), .mk "x" (.failing "a")]) = .error f)
    ∧ ∃ texts, listText texts <:+: "[2,1]".toList ∧ Spelled [.int 2, .int 1] texts := by
  obtain ⟨hreordered, helements⟩ := Key.ofArgument_reordered
  refine ⟨?_, ?_, ?_⟩
  · have hfields : Reorders
        (.ofEntries [(.text "k", .struct "P" [.mk "x" (.int 1), .mk "y" (.int 2)]),
          (.text "k", .int 7)])
        (.ofEntries [(.text "k", .struct "P" [.mk "y" (.int 2), .mk "x" (.int 1)]),
          (.text "k", .int 7)]) :=
      .inValue [.key (.text "k")] [.key (.text "k"), .value (.int 7)] (.struct "P" (.swap _ _ _))
    rcases hreordered _ _ (.tail (.single hfields) (reorders_ofEntries (.swap _ _ _))) with h | h
    · exact h
    · obtain ⟨e, f, he, -⟩ := h
      cases he
  · rcases hreordered _ _ (.single (.struct "P" (.swap (.mk "y" (.failing "b"))
        (.mk "x" (.failing "a")) []))) with h | h
    · obtain ⟨k, hk, -⟩ := h
      cases hk
    · exact h
  · obtain ⟨texts, hinfix, htexts, -⟩ :=
      helements (.tuple [.int 2, .int 1]) (.bytes [2, 1]) _ _ "[2,1]".toList rfl rfl
        (by decide +kernel) (by decide +kernel)
    exact ⟨texts, hinfix, htexts⟩

end Recurrence
