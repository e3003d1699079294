import Mathlib.Data.Multiset.MapFold
import Recurrence.Key.Basic
import Recurrence.Proofs.Decimal.Widening
import Recurrence.Proofs.Key.Order
import Recurrence.Proofs.Sequencing

/-!
# What a canonical text is the text of

Some differences between arguments are left out of a canonical text on purpose: how wide a number
is, whether a list was a sequence or a tuple, the names of structures, the order of a map's entries.
The normal form of an argument is what remains. It is a tree of lists and maps over scalars and
texts, in which `Same` lets the entries of a map change places, at every level; a narrow
floating-point number is the wide one of the same value (`Decimal.widen_value`). The text of an
argument is the text of its normal form, so whatever is proved of texts needs four cases only.
-/

namespace Recurrence

open Canonical Decimal

/-- What has no parts and no quotes. -/
inductive NormalForm.Scalar where
  | null
  | bool (b : Bool)
  | int (n : ℤ)
  | float (d : Double)

/-- What remains of an argument. -/
inductive NormalForm where
  | scalar (s : NormalForm.Scalar)
  | text (s : String)
  | list (items : List NormalForm)
  | map (entries : List (NormalForm × NormalForm))

namespace NormalForm

mutual

/-- Equal but for the order of the entries of maps: the entries of a map are a multiset. -/
inductive Same : NormalForm → NormalForm → Prop
  | scalar (s : Scalar) : Same (.scalar s) (.scalar s)
  | text (s : String) : Same (.text s) (.text s)
  | list {as bs : List NormalForm} : List.Forall₂ Same as bs → Same (.list as) (.list bs)
  | map {es fs : List (NormalForm × NormalForm)} :
      Multiset.Rel SameEntry es fs → Same (.map es) (.map fs)

/-- Entries with the same key and the same value. -/
inductive SameEntry : NormalForm × NormalForm → NormalForm × NormalForm → Prop
  | intro {e f : NormalForm × NormalForm} : Same e.1 f.1 → Same e.2 f.2 → SameEntry e f

end

/-- Induction over the items of lists and the entries of maps. -/
@[elab_as_elim, induction_eliminator]
theorem induct {motive : NormalForm → Prop} (scalar : ∀ s, motive (.scalar s))
    (text : ∀ s, motive (.text s)) (list : ∀ as, (∀ a ∈ as, motive a) → motive (.list as))
    (map : ∀ es : List (NormalForm × NormalForm), (∀ e ∈ es, motive e.1 ∧ motive e.2) →
      motive (.map es)) (a : NormalForm) : motive a :=
  NormalForm.rec (motive_1 := motive) (motive_2 := fun as => ∀ a ∈ as, motive a)
    (motive_3 := fun es => ∀ e ∈ es, motive e.1 ∧ motive e.2)
    (motive_4 := fun e => motive e.1 ∧ motive e.2) scalar text list map
    (fun _ h => absurd h List.not_mem_nil)
    (fun _ _ ha has => List.forall_mem_cons.mpr ⟨ha, has⟩)
    (fun _ h => absurd h List.not_mem_nil)
    (fun _ _ he hes => List.forall_mem_cons.mpr ⟨he, hes⟩)
    (fun _ _ hk hv => ⟨hk, hv⟩) a

/-! ## Texts -/

variable (f : Format)

def Scalar.chars : Scalar → List Char
  | .null => "null".toList
  | .bool b => if b then "true".toList else "false".toList
  | .int n => intChars n
  | .float d => f.float d.val

mutual

/-- The canonical text of a normal form. -/
def chars : NormalForm → List Char
  | .scalar s => s.chars f
  | .text s => f.quote s.toList
  | .list as => listText (itemsChars as)
  | .map es => mapText (entriesChars es)

/-- The texts of a list's items. -/
def itemsChars : List NormalForm → List (List Char)
  | [] => []
  | a :: as => a.chars :: itemsChars as

/-- The texts of a map's keys and values. -/
def entriesChars : List (NormalForm × NormalForm) → List Entry
  | [] => []
  | (k, v) :: es => (k.chars, v.chars) :: entriesChars es

end

/-- The texts of an entry's key and value. -/
def texts (e : NormalForm × NormalForm) : Entry := (e.1.chars f, e.2.chars f)

theorem itemsChars_eq_map (as : List NormalForm) : itemsChars f as = as.map (chars f) := by
  induction as with
  | nil => rfl
  | cons a as ih => rw [itemsChars, ih, List.map_cons]

theorem entriesChars_eq_map (es : List (NormalForm × NormalForm)) :
    entriesChars f es = es.map (texts f) := by
  induction es with
  | nil => rfl
  | cons e es ih => rw [entriesChars, ih, List.map_cons, texts]

end NormalForm

/-! ## Arguments -/

mutual

/-- The normal form of an argument that has a text. -/
def Argument.normal : Argument → NormalForm
  | .unit | .unitStruct _ | .absent => .scalar .null
  | .bool b => .scalar (.bool b)
  | .int n => .scalar (.int n)
  | .float32 bits => .scalar (.float (.ofBits (widen bits)))
  | .float64 bits => .scalar (.float (.ofBits bits))
  | .char c => .text (String.singleton c)
  | .text s | .unitVariant s => .text s
  | .bytes bs => .list (bs.map fun b => .scalar (.int b.toNat))
  | .present a | .newtypeStruct _ a => a.normal
  | .seq items | .tuple items | .tupleStruct _ items => .list (Argument.normalItems items)
  | .map parts => .map (Argument.completed none parts)
  | .struct _ fields => .map (Argument.normalFields fields)
  | .newtypeVariant variant a => .map [(.text variant, a.normal)]
  | .tupleVariant variant items => .map [(.text variant, .list (Argument.normalItems items))]
  | .structVariant variant fields => .map [(.text variant, .map (Argument.normalFields fields))]
  -- It has no text, and so no normal form: this one stands for none.
  | .failing _ => .scalar .null

/-- The normal forms of a sequence's items. -/
def Argument.normalItems : List Argument → List NormalForm
  | [] => []
  | a :: rest => a.normal :: Argument.normalItems rest

/-- The fields of a structure, by their names. -/
def Argument.normalFields : List Argument.Field → List (NormalForm × NormalForm)
  | [] => []
  | .mk name a :: rest => (.text name, a.normal) :: Argument.normalFields rest

/-- The entries that a stream of keys and values completes, given the key that waits for its value:
a value takes the last key before it, if no other value took it. -/
def Argument.completed :
    (waiting : Option NormalForm) → List Argument.Part → List (NormalForm × NormalForm)
  | _, [] => []
  | _, .key k :: rest => Argument.completed (some k.normal) rest
  | none, .value _ :: rest => Argument.completed none rest
  | some k, .value v :: rest => (k, v.normal) :: Argument.completed none rest

end

open NormalForm

variable {f : Format}

mutual

/-- **The text of an argument is the text of its normal form.** -/
theorem Argument.encode_eq_chars (a : Argument) {s : List Char} (h : a.encode f = .ok s) :
    s = a.normal.chars f := by
  cases a with
  | unit | unitStruct | absent | bool | int | float32 | float64 | text | unitVariant =>
    exact (Except.ok.inj h).symm
  | char c =>
    obtain rfl := Except.ok.inj h
    rw [Argument.normal, chars, String.toList_singleton]
  | bytes bs =>
    obtain rfl := Except.ok.inj h
    rw [Argument.normal, chars, itemsChars_eq_map, List.map_map]
    rfl
  | present a | newtypeStruct _ a => exact Argument.encode_eq_chars a h
  | seq items | tuple items | tupleStruct _ items =>
    obtain ⟨ts, hts, hs⟩ := bind_eq_ok.mp h
    obtain rfl := Argument.encodeItems_eq_chars items hts
    exact (Except.ok.inj hs).symm
  | map parts =>
    obtain ⟨es, hes, hs⟩ := bind_eq_ok.mp h
    obtain rfl := Argument.encodeParts_eq_chars none parts hes
    exact (Except.ok.inj hs).symm
  | struct _ fields =>
    obtain ⟨es, hes, hs⟩ := bind_eq_ok.mp h
    obtain rfl := Argument.encodeFields_eq_chars fields hes
    exact (Except.ok.inj hs).symm
  | newtypeVariant variant a =>
    obtain ⟨t, ht, hs⟩ := bind_eq_ok.mp h
    obtain rfl := Argument.encode_eq_chars a ht
    exact (Except.ok.inj hs).symm
  | tupleVariant variant items =>
    obtain ⟨ts, hts, hs⟩ := bind_eq_ok.mp h
    obtain rfl := Argument.encodeItems_eq_chars items hts
    exact (Except.ok.inj hs).symm
  | structVariant variant fields =>
    obtain ⟨es, hes, hs⟩ := bind_eq_ok.mp h
    obtain rfl := Argument.encodeFields_eq_chars fields hes
    exact (Except.ok.inj hs).symm
  | failing reason => cases h

theorem Argument.encodeItems_eq_chars (items : List Argument) {ts : List (List Char)}
    (h : Argument.encodeItems f items = .ok ts) :
    ts = itemsChars f (Argument.normalItems items) := by
  cases items with
  | nil => exact (Except.ok.inj h).symm
  | cons a rest =>
    obtain ⟨t, ht, h⟩ := bind_eq_ok.mp h
    obtain ⟨ts', hts, h⟩ := bind_eq_ok.mp h
    obtain rfl := Argument.encode_eq_chars a ht
    obtain rfl := Argument.encodeItems_eq_chars rest hts
    exact (Except.ok.inj h).symm

theorem Argument.encodeFields_eq_chars (fields : List Argument.Field) {es : List Entry}
    (h : Argument.encodeFields f fields = .ok es) :
    es = entriesChars f (Argument.normalFields fields) := by
  cases fields with
  | nil => exact (Except.ok.inj h).symm
  | cons field rest =>
    cases field with
    | mk name a =>
      obtain ⟨t, ht, h⟩ := bind_eq_ok.mp h
      obtain ⟨es', hes, h⟩ := bind_eq_ok.mp h
      obtain rfl := Argument.encode_eq_chars a ht
      obtain rfl := Argument.encodeFields_eq_chars rest hes
      exact (Except.ok.inj h).symm

theorem Argument.encodeParts_eq_chars (waiting : Option NormalForm) (parts : List Argument.Part)
    {es : List Entry} (h : Argument.encodeParts f (waiting.map (chars f)) parts = .ok es) :
    es = entriesChars f (Argument.completed waiting parts) := by
  cases parts with
  | nil =>
    rw [Argument.encodeParts] at h
    rw [Argument.completed]
    exact (Except.ok.inj h).symm
  | cons part rest =>
    cases part with
    | key k =>
      -- whatever waits is replaced
      rw [Argument.encodeParts, bind_eq_ok] at h
      obtain ⟨t, ht, h⟩ := h
      obtain rfl := Argument.encode_eq_chars k ht
      rw [Argument.completed]
      exact Argument.encodeParts_eq_chars (some k.normal) rest h
    | value v =>
      cases waiting with
      | none => cases h
      | some k =>
        obtain ⟨t, ht, h⟩ := bind_eq_ok.mp h
        obtain ⟨es', hes, h⟩ := bind_eq_ok.mp h
        obtain rfl := Argument.encode_eq_chars v ht
        obtain rfl := Argument.encodeParts_eq_chars none rest hes
        exact (Except.ok.inj h).symm

end

end Recurrence
