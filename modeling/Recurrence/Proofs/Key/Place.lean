import Recurrence.Proofs.Key.Null

/-!
# Places in a value

Where a type occurs in another one, a value of the other one can be built around any value of the
first, if the types that occur next to it have values at all. What is built around values that have
one text has one text. So a type is no better off than the types that occur in it: where one of
them has two values that look alike, so has the type.
-/

namespace Recurrence

open Canonical Argument

variable {ι : Type} {decl : ι → Declaration ι}

/-! ## Lists around a place -/

theorem exists_forall₂ {α β : Type} {R : α → β → Prop} {as : List α}
    (h : ∀ a ∈ as, ∃ b, R a b) : ∃ bs, List.Forall₂ R as bs := by
  induction as with
  | nil => exact ⟨[], .nil⟩
  | cons a as ih =>
    obtain ⟨⟨b, hb⟩, hrest⟩ := List.forall_mem_cons.mp h
    obtain ⟨bs, hbs⟩ := ih hrest
    exact ⟨b :: bs, .cons hb hbs⟩

theorem exists_around {α β : Type} {R : α → β → Prop} {as : List α} {a : α} (ha : a ∈ as)
    (h : ∀ a ∈ as, ∃ b, R a b) :
    ∃ front back, ∀ b, R a b → List.Forall₂ R as (front ++ b :: back) := by
  obtain ⟨as₁, as₂, rfl⟩ := List.append_of_mem ha
  obtain ⟨hfront, hback⟩ := List.forall_mem_append.mp h
  obtain ⟨front, hfront⟩ := exists_forall₂ hfront
  obtain ⟨back, hback⟩ := exists_forall₂ (List.forall_mem_cons.mp hback).2
  exact ⟨front, back, fun b hb => List.rel_append hfront (.cons hb hback)⟩

theorem around_injective {α : Type} (front back : List α) :
    Function.Injective fun a => front ++ a :: back :=
  fun _ _ h => (List.cons.inj (List.append_cancel_left h)).1

/-! ## Places -/

theorem Content.struct_injective (name : String) : Function.Injective (Content.struct name) := by
  intro c c' h
  cases c <;> cases c' <;> try cases h
  case unit.unit | newtype.newtype | tuple.tuple => rfl
  case fields.fields es fs => rw [fieldsOf_injective (Argument.struct.inj h).2]

theorem Content.variant_injective (variant : String) :
    Function.Injective (Content.variant variant) := by
  intro c c' h
  cases c <;> cases c' <;> try cases h
  case unit.unit | newtype.newtype | tuple.tuple => rfl
  case fields.fields es fs => rw [fieldsOf_injective (Argument.structVariant.inj h).2]

/-- A place for a value of one type in the contents of a body. -/
structure Content.Place (decl : ι → Declaration ι) (t : Shape ι) (body : Body ι) where
  fill : Argument → Content
  has : ∀ a, Has decl t a → Content.Of (Has decl) body (fill a)
  injective : Function.Injective fill
  struct_alike : ∀ name a b, Alike Eq a.encode b.encode →
    Alike Eq ((fill a).struct name).encode ((fill b).struct name).encode
  variant_alike : ∀ variant a b, Alike Eq a.encode b.encode →
    Alike Eq ((fill a).variant variant).encode ((fill b).variant variant).encode

/-- A place for a value of one type in the values of another one. -/
structure Place (decl : ι → Declaration ι) (t u : Shape ι) where
  fill : Argument → Argument
  has : ∀ a, Has decl t a → Has decl u (fill a)
  injective : Function.Injective fill
  alike : ∀ a b, Alike Eq a.encode b.encode → Alike Eq (fill a).encode (fill b).encode

def Place.refl (t : Shape ι) : Place decl t t :=
  ⟨id, fun _ ha => ha, Function.injective_id, fun _ _ h => h⟩

def Place.trans {s t u : Shape ι} (p : Place decl s t) (q : Place decl t u) : Place decl s u :=
  ⟨q.fill ∘ p.fill, fun _ ha => q.has _ (p.has _ ha), q.injective.comp p.injective,
    fun _ _ h => q.alike _ _ (p.alike _ _ h)⟩

theorem Content.Place.exists_of_part {t : Shape ι} {body : Body ι} (ht : t ∈ body.parts)
    (h : ∀ s ∈ body.parts, ∃ v, Has decl s v) : Nonempty (Content.Place decl t body) := by
  cases body with
  | unit => cases ht
  | newtype u =>
    obtain rfl := List.mem_singleton.mp ht
    exact ⟨⟨.newtype, fun _ ha => .newtype ha, fun _ _ h => Content.newtype.inj h,
      fun _ _ _ h => h, fun _ _ _ h => h.before _⟩⟩
  | tuple ts =>
    obtain ⟨front, back, hfill⟩ := exists_around ht h
    exact ⟨⟨fun a => .tuple (front ++ a :: back), fun a ha => .tuple (hfill a ha),
      fun _ _ h => around_injective front back (Content.tuple.inj h),
      fun _ _ _ h => (encodeItems_alike h front back).before _,
      fun _ _ _ h => (encodeItems_alike h front back).before _⟩⟩
  | fields fs =>
    obtain ⟨⟨name, t⟩, hmem, rfl⟩ := List.mem_map.mp ht
    obtain ⟨front, back, hfill⟩ := exists_around (R := Content.FieldOf (Has decl)) hmem fun f hf =>
      have ⟨v, hv⟩ := h _ (List.mem_map_of_mem hf)
      ⟨(f.1, v), .intro hv⟩
    have halike (a b : Argument) (hab : Alike Eq a.encode b.encode) :
        Alike Eq (encodeFields .json (fieldsOf (front ++ (name, a) :: back)))
          (encodeFields .json (fieldsOf (front ++ (name, b) :: back))) := by
      rw [fieldsOf_append, fieldsOf_append, fieldsOf_cons, fieldsOf_cons]
      exact encodeFields_alike hab name (fieldsOf front) (fieldsOf back)
    exact ⟨⟨fun a => .fields (front ++ (name, a) :: back),
      fun a ha => .fields (hfill _ (.intro ha)),
      fun _ _ h => (Prod.mk.inj (around_injective front back (Content.fields.inj h))).2,
      fun _ a b hab => (halike a b hab).before _, fun _ a b hab => (halike a b hab).before _⟩⟩

/-- The type of a part has a place, if the types of all parts have values. -/
theorem Place.exists_of_part {t u : Shape ι} (ht : t ∈ u.parts decl)
    (h : ∀ s ∈ u.parts decl, ∃ v, Has decl s v) : Nonempty (Place decl t u) := by
  cases u with
  | unit | bool | int | text => cases ht
  | option =>
    obtain rfl := List.mem_singleton.mp ht
    exact ⟨⟨.present, fun _ ha => .some ha, fun _ _ h => Argument.present.inj h, fun _ _ h => h⟩⟩
  | vec =>
    obtain rfl := List.mem_singleton.mp ht
    refine ⟨⟨fun a => .seq [a], fun a ha => .vec ?_, fun _ _ h => ?_,
      fun _ _ h => (encodeItems_alike h [] []).before _⟩⟩
    · exact List.forall_mem_singleton.mpr ha
    · exact (List.cons.inj (Argument.seq.inj h)).1
  | tuple ts =>
    obtain ⟨front, back, hfill⟩ := exists_around ht h
    exact ⟨⟨fun a => .tuple (front ++ a :: back), fun a ha => .tuple (hfill a ha),
      fun _ _ h => around_injective front back (Argument.tuple.inj h),
      fun _ _ h => (encodeItems_alike h front back).before _⟩⟩
  | map =>
    obtain rfl := List.mem_singleton.mp ht
    refine ⟨⟨fun a => .ofTexts [("", a)], fun a ha => .map (List.pairwise_singleton _ _) ?_,
      fun _ _ h => ?_, fun _ _ h => ?_⟩⟩
    · exact List.forall_mem_singleton.mpr ha
    · cases h
      rfl
    · rw [encode_ofTexts, encode_ofTexts]
      exact (encodeFields_alike h "" [] []).before _
  | named i =>
    rw [Shape.parts] at ht h
    generalize hi : decl i = d at ht h
    cases d with
    | struct name body =>
      obtain ⟨p⟩ := Content.Place.exists_of_part ht h
      exact ⟨⟨fun a => (p.fill a).struct name, fun a ha => .struct hi (p.has a ha),
        (Content.struct_injective name).comp p.injective, p.struct_alike name⟩⟩
    | enum variants =>
      -- any variant with the part will do: the parts of the others stand in no value of it
      obtain ⟨⟨variant, body⟩, hmem, ht⟩ := List.mem_flatMap.mp ht
      obtain ⟨p⟩ := Content.Place.exists_of_part ht fun s hs =>
        h s (List.mem_flatMap_of_mem hmem hs)
      exact ⟨⟨fun a => (p.fill a).variant variant, fun a ha => .enum hi hmem (p.has a ha),
        (Content.variant_injective variant).comp p.injective, p.variant_alike variant⟩⟩

/-- A type that occurs in another one has a place in its values. -/
theorem Place.exists_of_occurs {t u : Shape ι} (hoccurs : Occurs decl t u)
    (h : ∀ s, Occurs decl s u → ∃ v, Has decl s v) : Nonempty (Place decl t u) := by
  induction hoccurs with
  | refl => exact ⟨.refl t⟩
  | tail _ hpart ih =>
    obtain ⟨p⟩ := ih fun s hs => h s (hs.tail hpart)
    obtain ⟨q⟩ := Place.exists_of_part hpart fun s hs => h s (.single hs)
    exact ⟨p.trans q⟩

end Recurrence
