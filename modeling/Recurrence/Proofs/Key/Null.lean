import Recurrence.Proofs.Key.Reordering
import Recurrence.Proofs.Key.Types

/-!
# Values that are written `null`

Every value of a type has a text. An option says nothing of its own in it: the text of a value that
is there is the text of the value, and what is not there is written `null`. So the types that
matter are those of which a value is written `null`: units, options, and structures that stand for
one of these.
-/

namespace Recurrence

open Canonical NormalForm

variable {ι : Type} {decl : ι → Declaration ι}

/-! ## Values have a text -/

namespace Argument

theorem encodeItems_ok {items : List Argument} (h : ∀ a ∈ items, ∃ s, a.encode = .ok s) :
    ∃ texts, encodeItems .json items = .ok texts := by
  induction items with
  | nil => exact ⟨_, rfl⟩
  | cons a items ih =>
    obtain ⟨⟨s, hs⟩, hrest⟩ := List.forall_mem_cons.mp h
    obtain ⟨texts, htexts⟩ := ih hrest
    exact ⟨_, by rw [encodeItems, hs, htexts]; rfl⟩

theorem encodeFields_ok {es : List (String × Argument)} (h : ∀ e ∈ es, ∃ s, e.2.encode = .ok s) :
    ∃ entries, encodeFields .json (fieldsOf es) = .ok entries := by
  induction es with
  | nil => exact ⟨_, rfl⟩
  | cons e es ih =>
    obtain ⟨⟨s, hs⟩, hrest⟩ := List.forall_mem_cons.mp h
    obtain ⟨entries, hentries⟩ := ih hrest
    exact ⟨_, by rw [fieldsOf_cons, encodeFields, hs, hentries]; rfl⟩

/-- Entries with texts for keys are written like fields. -/
theorem encodeParts_ofTexts (es : List (String × Argument)) :
    encodeParts .json none
        ((es.map fun e => (text e.1, e.2)).flatMap fun (k, v) => [.key k, .value v])
      = encodeFields .json (fieldsOf es) := by
  induction es with
  | nil => rfl
  | cons e es ih =>
    rw [List.map_cons, List.flatMap_cons, fieldsOf_cons, encodeFields, ← ih]
    rfl

theorem encode_ofTexts (es : List (String × Argument)) :
    (ofTexts es).encode = (do return mapText (← encodeFields .json (fieldsOf es))) := by
  rw [← encodeParts_ofTexts]
  rfl

end Argument

open Argument

theorem exists_mem_of_forall₂ {α β : Type} {R : α → β → Prop} {as : List α} {bs : List β}
    (h : List.Forall₂ R as bs) {b : β} (hb : b ∈ bs) : ∃ a ∈ as, R a b := by
  induction h with
  | nil => cases hb
  | @cons a c as bs hac _ ih =>
    rcases List.mem_cons.mp hb with rfl | hb
    · exact ⟨a, List.mem_cons_self, hac⟩
    · obtain ⟨a', ha', hR⟩ := ih hb
      exact ⟨a', List.mem_cons_of_mem _ ha', hR⟩

theorem Content.Of.encode_ok {R : Shape ι → Argument → Prop} {body : Body ι} {c : Content}
    (h : Content.Of R body c) (hR : ∀ t a, R t a → ∃ s, a.encode = .ok s) (name : String) :
    (∃ s, (c.struct name).encode = .ok s) ∧ ∃ s, (c.variant name).encode = .ok s := by
  cases h with
  | unit => exact ⟨⟨_, rfl⟩, ⟨_, rfl⟩⟩
  | newtype h =>
    obtain ⟨s, hs⟩ := hR _ _ h
    exact ⟨⟨s, hs⟩, ⟨_, by rw [Content.variant, encode, hs]; rfl⟩⟩
  | tuple h =>
    obtain ⟨texts, htexts⟩ := encodeItems_ok fun a ha =>
      have ⟨t, _, h⟩ := exists_mem_of_forall₂ h ha
      hR t a h
    exact ⟨⟨_, by rw [Content.struct, encode, htexts]; rfl⟩,
      ⟨_, by rw [Content.variant, encode, htexts]; rfl⟩⟩
  | fields h =>
    obtain ⟨entries, hentries⟩ := encodeFields_ok fun e he =>
      have ⟨_, _, .intro h⟩ := exists_mem_of_forall₂ h he
      hR _ _ h
    exact ⟨⟨_, by rw [Content.struct, encode, hentries]; rfl⟩,
      ⟨_, by rw [Content.variant, encode, hentries]; rfl⟩⟩

/-- Every value of a type has a text. -/
theorem Has.encode_ok {t : Shape ι} {v : Argument} (h : Has decl t v) : ∃ s, v.encode = .ok s := by
  induction h using Has.induct with
  | unit | bool | int | text | none => exact ⟨_, rfl⟩
  | some _ ih => exact ih
  | vec _ ih =>
    obtain ⟨texts, htexts⟩ := encodeItems_ok ih
    exact ⟨_, by rw [encode, htexts]; rfl⟩
  | tuple _ ih =>
    obtain ⟨texts, htexts⟩ := encodeItems_ok fun a ha =>
      have ⟨_, _, _, h⟩ := exists_mem_of_forall₂ ih ha
      h
    exact ⟨_, by rw [encode, htexts]; rfl⟩
  | map _ _ ih =>
    obtain ⟨entries, hentries⟩ := encodeFields_ok ih
    exact ⟨_, by rw [encode_ofTexts, hentries]; rfl⟩
  | struct _ _ ih => exact (ih.encode_ok (fun _ _ h => h.2) _).1
  | enum _ _ _ ih => exact (ih.encode_ok (fun _ _ h => h.2) _).2

/-! ## Values that are written `null` -/

/-- A type of which a value is written `null`. -/
inductive Nullable (decl : ι → Declaration ι) : Shape ι → Prop
  | unit : Nullable decl .unit
  | option (t : Shape ι) : Nullable decl (.option t)
  | unitStruct {i : ι} {name : String} : decl i = .struct name .unit → Nullable decl (.named i)
  | newtypeStruct {i : ι} {name : String} {t : Shape ι} : decl i = .struct name (.newtype t) →
      Nullable decl t → Nullable decl (.named i)

/-- What remains of a content, whatever its structure is called. -/
def Content.normal : Content → NormalForm
  | .unit => .scalar .null
  | .newtype a => a.normal
  | .tuple items => .list (normalItems items)
  | .fields es => .map (normalFields (fieldsOf es))

theorem Content.normal_struct (c : Content) (name : String) :
    (c.struct name).normal = c.normal := by
  cases c <;> rfl

theorem Has.nullable {t : Shape ι} {v : Argument} (h : Has decl t v)
    (hnull : v.normal = .scalar .null) : Nullable decl t := by
  induction h using Has.induct with
  | unit => exact .unit
  | none t => exact .option t
  | some => exact .option _
  | bool | int | text | vec | tuple | map => cases hnull
  | struct hi _ ih =>
    rw [Content.normal_struct] at hnull
    cases ih with
    | unit => exact .unitStruct hi
    | newtype h => exact .newtypeStruct hi (h.2 hnull)
    | tuple | fields => cases hnull
  | enum _ _ _ ih =>
    cases ih <;> cases hnull

/-- A value that is written `null`. -/
theorem Nullable.exists_null {t : Shape ι} (h : Nullable decl t) :
    ∃ v, Has decl t v ∧ v.encode = .ok "null".toList := by
  induction h with
  | unit => exact ⟨.unit, .unit, rfl⟩
  | option t => exact ⟨.absent, .none t, rfl⟩
  | unitStruct hi => exact ⟨_, .struct hi .unit, rfl⟩
  | newtypeStruct hi _ ih =>
    obtain ⟨v, hv, hnull⟩ := ih
    exact ⟨_, .struct hi (.newtype hv), hnull⟩

end Recurrence
