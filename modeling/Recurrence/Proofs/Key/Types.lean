import Mathlib.Algebra.Group.Int.Defs
import Mathlib.Data.List.Forall2
import Mathlib.Logic.Relation
import Recurrence.Key.Argument

/-!
# Types of arguments

A type says in which parts its values are handed over. Structures and enums are declared under
names, and declarations refer to names, so a type may contain itself; its values are finite all the
same.

The entries of a map come in any order, so a map has many arguments. As a value of its type it is
the one whose keys are in order; the others are that one with its entries reordered.
-/

namespace Recurrence

/-- A type of arguments, with names for the structures and enums that are declared. -/
inductive Shape (ι : Type) where
  | unit
  | bool
  /-- Numbers of so many bits, with a sign or without one. -/
  | int (signed : Bool) (bits : Nat)
  | text
  | option (t : Shape ι)
  | vec (t : Shape ι)
  | tuple (ts : List (Shape ι))
  /-- A map with texts for keys. -/
  | map (t : Shape ι)
  | named (i : ι)

/-- What a structure consists of, or a variant of an enum. -/
inductive Body (ι : Type) where
  | unit
  | newtype (t : Shape ι)
  | tuple (ts : List (Shape ι))
  | fields (fs : List (String × Shape ι))

inductive Declaration (ι : Type) where
  | struct (name : String) (body : Body ι)
  | enum (variants : List (String × Body ι))

variable {ι : Type}

/-! ## Names and parts -/

/-- The types that stand in a body. -/
def Body.parts : Body ι → List (Shape ι)
  | .unit => []
  | .newtype t => [t]
  | .tuple ts => ts
  | .fields fs => fs.map Prod.snd

def Declaration.parts : Declaration ι → List (Shape ι)
  | .struct _ body => body.parts
  | .enum variants => variants.flatMap fun v => v.2.parts

/-- No two fields of a structure have one name. -/
def Body.Distinct : Body ι → Prop
  | .unit | .newtype _ | .tuple _ => True
  | .fields fs => (fs.map Prod.fst).Nodup

/-- No two variants have one name, and no two fields. -/
def Declaration.Distinct : Declaration ι → Prop
  | .struct _ body => body.Distinct
  | .enum variants => (variants.map Prod.fst).Nodup ∧ ∀ v ∈ variants, v.2.Distinct

/-- The types that stand directly in a type. -/
def Shape.parts (decl : ι → Declaration ι) : Shape ι → List (Shape ι)
  | .unit | .bool | .int _ _ | .text => []
  | .option t | .vec t | .map t => [t]
  | .tuple ts => ts
  | .named i => (decl i).parts

/-- A type occurs in another one, at any depth. -/
def Occurs (decl : ι → Declaration ι) : Shape ι → Shape ι → Prop :=
  Relation.ReflTransGen fun t u => t ∈ u.parts decl

/-- What occurs in a type is among any types that have that one among them, and all their parts. -/
theorem Occurs.mem {decl : ι → Declaration ι} {t u : Shape ι} (h : Occurs decl t u)
    (ts : List (Shape ι)) (hparts : ∀ s ∈ ts, ∀ p ∈ s.parts decl, p ∈ ts) (hu : u ∈ ts) :
    t ∈ ts := by
  induction h with
  | refl => exact hu
  | tail _ hpart ih => exact ih (hparts _ hu _ hpart)

/-! ## Values -/

/-- What a value of a structure or a variant consists of. -/
inductive Content where
  | unit
  | newtype (a : Argument)
  | tuple (items : List Argument)
  | fields (es : List (String × Argument))

/-- Values under their names, handed over as fields. -/
def Argument.fieldsOf (es : List (String × Argument)) : List Argument.Field :=
  es.map fun e => .mk e.1 e.2

theorem Argument.fieldsOf_cons (e : String × Argument) (es : List (String × Argument)) :
    fieldsOf (e :: es) = .mk e.1 e.2 :: fieldsOf es := rfl

theorem Argument.fieldsOf_append (es fs : List (String × Argument)) :
    fieldsOf (es ++ fs) = fieldsOf es ++ fieldsOf fs := List.map_append

theorem Argument.fieldsOf_injective : Function.Injective fieldsOf :=
  List.map_injective_iff.mpr fun _ _ h =>
    Prod.ext (Argument.Field.mk.inj h).1 (Argument.Field.mk.inj h).2

/-- Handed over as a structure, or as a variant of an enum. -/
def Content.struct (name : String) : Content → Argument
  | .unit => .unitStruct name
  | .newtype a => .newtypeStruct name a
  | .tuple items => .tupleStruct name items
  | .fields es => .struct name (Argument.fieldsOf es)

def Content.variant (variant : String) : Content → Argument
  | .unit => .unitVariant variant
  | .newtype a => .newtypeVariant variant a
  | .tuple items => .tupleVariant variant items
  | .fields es => .structVariant variant (Argument.fieldsOf es)

/-- A map with texts for keys. -/
def Argument.ofTexts (es : List (String × Argument)) : Argument :=
  .ofEntries (es.map fun e => (.text e.1, e.2))

/-- A field under its name, given what it is to be of a type. -/
inductive Content.FieldOf (R : Shape ι → Argument → Prop) :
    String × Shape ι → String × Argument → Prop
  | intro {name : String} {t : Shape ι} {a : Argument} : R t a → FieldOf R (name, t) (name, a)

/-- What a body says of its content. -/
inductive Content.Of (R : Shape ι → Argument → Prop) : Body ι → Content → Prop
  | unit : Of R .unit .unit
  | newtype {t : Shape ι} {a : Argument} : R t a → Of R (.newtype t) (.newtype a)
  | tuple {ts : List (Shape ι)} {items : List Argument} :
      List.Forall₂ R ts items → Of R (.tuple ts) (.tuple items)
  | fields {fs : List (String × Shape ι)} {es : List (String × Argument)} :
      List.Forall₂ (FieldOf R) fs es → Of R (.fields fs) (.fields es)

/-- The numbers of a word. -/
def InWord (signed : Bool) (bits : Nat) (n : Int) : Prop :=
  if signed then -2 ^ (bits - 1) ≤ n ∧ n < 2 ^ (bits - 1) else 0 ≤ n ∧ n < 2 ^ bits

/-- A value of a type. -/
inductive Has (decl : ι → Declaration ι) : Shape ι → Argument → Prop
  | unit : Has decl .unit .unit
  | bool (b : Bool) : Has decl .bool (.bool b)
  | int {signed : Bool} {bits : Nat} {n : Int} :
      InWord signed bits n → Has decl (.int signed bits) (.int n)
  | text (s : String) : Has decl .text (.text s)
  | none (t : Shape ι) : Has decl (.option t) .absent
  | some {t : Shape ι} {a : Argument} : Has decl t a → Has decl (.option t) (.present a)
  | vec {t : Shape ι} {items : List Argument} :
      (∀ a ∈ items, Has decl t a) → Has decl (.vec t) (.seq items)
  | tuple {ts : List (Shape ι)} {items : List Argument} :
      List.Forall₂ (Has decl) ts items → Has decl (.tuple ts) (.tuple items)
  | map {t : Shape ι} {es : List (String × Argument)} :
      (es.map Prod.fst).Pairwise (· < ·) → (∀ e ∈ es, Has decl t e.2) →
      Has decl (.map t) (.ofTexts es)
  | struct {i : ι} {name : String} {body : Body ι} {c : Content} :
      decl i = .struct name body → Content.Of (Has decl) body c →
      Has decl (.named i) (c.struct name)
  | enum {i : ι} {variants : List (String × Body ι)} {variant : String} {body : Body ι}
      {c : Content} : decl i = .enum variants → (variant, body) ∈ variants →
      Content.Of (Has decl) body c → Has decl (.named i) (c.variant variant)

/-- **Induction over the parts of a value.** -/
@[elab_as_elim]
theorem Has.induct {decl : ι → Declaration ι} {motive : ∀ t v, Has decl t v → Prop}
    (unit : motive .unit .unit .unit) (bool : ∀ b, motive .bool (.bool b) (.bool b))
    (int : ∀ {signed bits n} (h : InWord signed bits n),
      motive (.int signed bits) (.int n) (.int h))
    (text : ∀ s, motive .text (.text s) (.text s))
    (none : ∀ t, motive (.option t) .absent (.none t))
    (some : ∀ {t a} (h : Has decl t a), motive t a h → motive (.option t) (.present a) (.some h))
    (vec : ∀ {t items} (h : ∀ a ∈ items, Has decl t a),
      (∀ a (ha : a ∈ items), motive t a (h a ha)) → motive (.vec t) (.seq items) (.vec h))
    (tuple : ∀ {ts items} (h : List.Forall₂ (Has decl) ts items),
      List.Forall₂ (fun t a => ∃ h, motive t a h) ts items →
      motive (.tuple ts) (.tuple items) (.tuple h))
    (map : ∀ {t} {es : List (String × Argument)} (hs : (es.map Prod.fst).Pairwise (· < ·))
      (h : ∀ e ∈ es, Has decl t e.2), (∀ e (he : e ∈ es), motive t e.2 (h e he)) →
      motive (.map t) (.ofTexts es) (.map hs h))
    (struct : ∀ {i name body c} (hi : decl i = .struct name body)
      (h : Content.Of (Has decl) body c), Content.Of (fun t a => ∃ h, motive t a h) body c →
      motive (.named i) (c.struct name) (.struct hi h))
    (enum : ∀ {i variants variant body c} (hi : decl i = .enum variants)
      (hv : (variant, body) ∈ variants) (h : Content.Of (Has decl) body c),
      Content.Of (fun t a => ∃ h, motive t a h) body c →
      motive (.named i) (c.variant variant) (.enum hi hv h))
    {t : Shape ι} {v : Argument} (h : Has decl t v) : motive t v h :=
  Has.rec (motive_1 := motive)
    (motive_2 := fun ts items _ => List.Forall₂ (fun t a => ∃ h, motive t a h) ts items)
    (motive_3 := fun body c _ => Content.Of (fun t a => ∃ h, motive t a h) body c)
    (motive_4 := fun fs es _ => List.Forall₂ (Content.FieldOf fun t a => ∃ h, motive t a h) fs es)
    (motive_5 := fun f e _ => Content.FieldOf (fun t a => ∃ h, motive t a h) f e)
    unit bool int text none some vec tuple map struct enum
    .nil (fun h _ ih ihs => .cons ⟨h, ih⟩ ihs)
    .unit (fun h ih => .newtype ⟨h, ih⟩) (fun _ ih => .tuple ih) (fun _ ih => .fields ih)
    .nil (fun _ _ ih ihs => .cons ih ihs) (fun h ih => .intro ⟨h, ih⟩) h

end Recurrence
