import Recurrence.Proofs.Key.NormalForm

/-!
# The first failure

An argument has no key if something fails while it is handed over: a part that fails by itself, or
the value of a map for which no key waits. `Argument.walk` lists all that is handed over, in order
and as if nothing had failed, and says nothing of texts. The attempt to write the text fails exactly
if a visit of the walk does, and with the reason of the first one (`encode_failsFirst`).

Keys that never get a value are walked like all the others, so what fails inside them counts. They
leave nothing in the text, though: `Argument.tidied` takes them out at every depth, and the text
stays the same.
-/

namespace Recurrence

open Canonical

/-! ## The walk -/

/-- What happens on the way through an argument. -/
inductive Visit where
  /-- A part is handed over; the parts inside it follow. -/
  | part (a : Argument)
  /-- The value of a map is about to be handed over, and no key waits for it. -/
  | keylessValue

/-- Why a visit fails. -/
def Visit.reason? : Visit → Option String
  | .part (.failing reason) => some reason
  | .part _ => none
  | .keylessValue => some "map value without a key"

namespace Argument

mutual

/-- What happens inside an argument. -/
def inside : Argument → List Visit
  | .present a | .newtypeStruct _ a | .newtypeVariant _ a => .part a :: a.inside
  | .seq items | .tuple items | .tupleStruct _ items | .tupleVariant _ items => insideItems items
  | .map parts => insideParts false parts
  | .struct _ fields | .structVariant _ fields => insideFields fields
  | .unit | .bool _ | .int _ | .float32 _ | .float64 _ | .char _ | .text _ | .bytes _ | .absent
  | .unitStruct _ | .unitVariant _ | .failing _ => []

/-- One item after the other. -/
def insideItems : List Argument → List Visit
  | [] => []
  | a :: rest => .part a :: a.inside ++ insideItems rest

/-- One field after the other. -/
def insideFields : List Field → List Visit
  | [] => []
  | .mk _ a :: rest => .part a :: a.inside ++ insideFields rest

/-- One key or value after the other. A key waits from when it has been handed over until a value
takes it. -/
def insideParts : (waits : Bool) → List Part → List Visit
  | _, [] => []
  | _, .key k :: rest => .part k :: k.inside ++ insideParts true rest
  | true, .value v :: rest => .part v :: v.inside ++ insideParts false rest
  | false, .value v :: rest => .keylessValue :: (.part v :: v.inside ++ insideParts false rest)

end

/-- All that happens on the way through an argument, whether it fails or not. -/
def walk (a : Argument) : List Visit := .part a :: a.inside

/-! ## Keys without a value -/

/-- Is a value the next thing that is handed over? -/
def valueNext : List Part → Bool
  | .value _ :: _ => true
  | _ => false

mutual

/-- The argument without the keys that never get a value, at every depth. -/
def tidied : Argument → Argument
  | .present a => .present a.tidied
  | .seq items => .seq (tidiedItems items)
  | .tuple items => .tuple (tidiedItems items)
  | .map parts => .map (tidiedParts parts)
  | .newtypeStruct name a => .newtypeStruct name a.tidied
  | .tupleStruct name items => .tupleStruct name (tidiedItems items)
  | .struct name fields => .struct name (tidiedFields fields)
  | .newtypeVariant variant a => .newtypeVariant variant a.tidied
  | .tupleVariant variant items => .tupleVariant variant (tidiedItems items)
  | .structVariant variant fields => .structVariant variant (tidiedFields fields)
  | .unit => .unit
  | .bool b => .bool b
  | .int n => .int n
  | .float32 bits => .float32 bits
  | .float64 bits => .float64 bits
  | .char c => .char c
  | .text s => .text s
  | .bytes bs => .bytes bs
  | .absent => .absent
  | .unitStruct name => .unitStruct name
  | .unitVariant variant => .unitVariant variant
  | .failing reason => .failing reason

def tidiedItems : List Argument → List Argument
  | [] => []
  | a :: rest => a.tidied :: tidiedItems rest

def tidiedFields : List Field → List Field
  | [] => []
  | .mk name a :: rest => .mk name a.tidied :: tidiedFields rest

/-- Of the keys only those stay that a value follows at once: another one is replaced by the key
that follows it, or still waits at the end. -/
def tidiedParts : List Part → List Part
  | [] => []
  | .key k :: rest => if valueNext rest then .key k.tidied :: tidiedParts rest else tidiedParts rest
  | .value v :: rest => .value v.tidied :: tidiedParts rest

end

end Argument

/-! ## Failing with the first visit that fails -/

/-- The attempt fails exactly if one of the visits does, and for the reason of the first. -/
def FailsFirst {α : Type} (visits : List Visit) (attempt : Except EncodeError α) : Prop :=
  visits.findSome? Visit.reason? = match attempt with
    | .ok _ => none
    | .error e => some e.reason

namespace FailsFirst

variable {α β : Type} {visit : Visit} {visits front back : List Visit}

theorem done (r : α) : FailsFirst [] (.ok r) := rfl

/-- A visit that does not fail changes nothing. -/
theorem pass {x : Except EncodeError α} (hvisit : visit.reason? = none) (h : FailsFirst visits x) :
    FailsFirst (visit :: visits) x := by
  unfold FailsFirst at h ⊢
  rw [List.findSome?_cons, hvisit]
  exact h

/-- One attempt after the other: the second is made only if the first succeeds. -/
theorem bind {x : Except EncodeError α} {f : α → Except EncodeError β} (hx : FailsFirst front x)
    (hf : ∀ r, FailsFirst back (f r)) : FailsFirst (front ++ back) (x >>= f) := by
  unfold FailsFirst at hx
  unfold FailsFirst
  rw [List.findSome?_append, hx]
  cases x with
  | error e => rfl
  | ok r => exact hf r

/-- What is made of a result cannot fail. -/
theorem map {x : Except EncodeError α} (f : α → β) (h : FailsFirst visits x) :
    FailsFirst visits (x >>= fun r => .ok (f r)) := by
  have hboth := h.bind fun r => done (f r)
  rwa [List.append_nil] at hboth

theorem error_iff {x : Except EncodeError α} (h : FailsFirst visits x) (reason : String) :
    (∃ e, x = .error e ∧ e.reason = reason) ↔
      ∃ front visit back, visits = front ++ visit :: back ∧ visit.reason? = some reason ∧
        ∀ earlier ∈ front, earlier.reason? = none := by
  rw [← List.findSome?_eq_some_iff, h]
  cases x with
  | ok r => exact iff_of_false nofun nofun
  | error e =>
    constructor
    · intro hfails
      obtain ⟨e', he, hreason⟩ := hfails
      obtain rfl := Except.error.inj he
      exact congrArg some hreason
    · intro hreason
      exact ⟨e, rfl, Option.some.inj hreason⟩

theorem ok_iff {x : Except EncodeError α} (h : FailsFirst visits x) :
    (∃ r, x = .ok r) ↔ ∀ visit ∈ visits, visit.reason? = none := by
  rw [← List.findSome?_eq_none_iff, h]
  cases x with
  | ok r => exact iff_of_true ⟨r, rfl⟩ rfl
  | error e => exact iff_of_false nofun nofun

end FailsFirst

namespace Argument

variable {f : Format}

mutual

/-- The text of an argument fails with the first visit on the way through it. -/
theorem encode_failsFirst (a : Argument) : FailsFirst a.walk (a.encode f) := by
  cases a with
  | unit | unitStruct | absent | bool | int | float32 | float64 | char | text | unitVariant
  | bytes => exact .pass rfl (.done _)
  | present a | newtypeStruct _ a => exact .pass rfl (encode_failsFirst a)
  | seq items | tuple items | tupleStruct _ items =>
    exact .pass rfl (.map _ (encodeItems_failsFirst items))
  | map parts => exact .pass rfl (.map _ (encodeParts_failsFirst none parts))
  | struct _ fields => exact .pass rfl (.map _ (encodeFields_failsFirst fields))
  | newtypeVariant _ a => exact .pass rfl (.map _ (encode_failsFirst a))
  | tupleVariant _ items => exact .pass rfl (.map _ (encodeItems_failsFirst items))
  | structVariant _ fields => exact .pass rfl (.map _ (encodeFields_failsFirst fields))
  | failing reason => rfl

theorem encodeItems_failsFirst (items : List Argument) :
    FailsFirst (insideItems items) (encodeItems f items) := by
  cases items with
  | nil => exact .done []
  | cons a rest => exact (encode_failsFirst a).bind fun _ => .map _ (encodeItems_failsFirst rest)

theorem encodeFields_failsFirst (fields : List Field) :
    FailsFirst (insideFields fields) (encodeFields f fields) := by
  cases fields with
  | nil => exact .done []
  | cons field rest =>
    cases field with
    | mk name a => exact (encode_failsFirst a).bind fun _ => .map _ (encodeFields_failsFirst rest)

/-- Whether a key waits decides what fails; which key it is does not. -/
theorem encodeParts_failsFirst (waiting : Option (List Char)) (parts : List Part) :
    FailsFirst (insideParts waiting.isSome parts) (encodeParts f waiting parts) := by
  cases parts with
  | nil =>
    rw [insideParts, encodeParts]
    exact .done []
  | cons part rest =>
    cases part with
    | key k =>
      rw [insideParts, encodeParts]
      exact (encode_failsFirst k).bind fun key => encodeParts_failsFirst (some key) rest
    | value v =>
      cases waiting with
      | none => rfl
      | some key => exact (encode_failsFirst v).bind fun _ => .map _ (encodeParts_failsFirst none rest)

end

/-! ## Keys without a value leave nothing behind -/

mutual

/-- The text of an argument that has one does not show the keys without a value. -/
theorem encode_tidied (a : Argument) {s : List Char} (h : a.encode f = .ok s) :
    a.tidied.encode f = .ok s := by
  cases a with
  | unit | unitStruct | absent | bool | int | float32 | float64 | char | text | unitVariant
  | bytes => exact h
  | present a | newtypeStruct _ a => exact encode_tidied a h
  | seq items | tuple items | tupleStruct _ items =>
    obtain ⟨ts, hts, hs⟩ := bind_eq_ok.mp h
    exact bind_eq_ok.mpr ⟨ts, encodeItems_tidied items hts, hs⟩
  | map parts =>
    obtain ⟨es, hes, hs⟩ := bind_eq_ok.mp h
    exact bind_eq_ok.mpr ⟨es, encodeParts_tidied none none parts (.inl rfl) hes, hs⟩
  | struct _ fields =>
    obtain ⟨es, hes, hs⟩ := bind_eq_ok.mp h
    exact bind_eq_ok.mpr ⟨es, encodeFields_tidied fields hes, hs⟩
  | newtypeVariant _ a =>
    obtain ⟨t, ht, hs⟩ := bind_eq_ok.mp h
    exact bind_eq_ok.mpr ⟨t, encode_tidied a ht, hs⟩
  | tupleVariant _ items =>
    obtain ⟨ts, hts, hs⟩ := bind_eq_ok.mp h
    exact bind_eq_ok.mpr ⟨ts, encodeItems_tidied items hts, hs⟩
  | structVariant _ fields =>
    obtain ⟨es, hes, hs⟩ := bind_eq_ok.mp h
    exact bind_eq_ok.mpr ⟨es, encodeFields_tidied fields hes, hs⟩
  | failing reason => cases h

theorem encodeItems_tidied (items : List Argument) {ts : List (List Char)}
    (h : encodeItems f items = .ok ts) : encodeItems f (tidiedItems items) = .ok ts := by
  cases items with
  | nil => exact h
  | cons a rest =>
    obtain ⟨t, ht, h⟩ := bind_eq_ok.mp h
    obtain ⟨ts', hts, h⟩ := bind_eq_ok.mp h
    exact bind_eq_ok.mpr ⟨t, encode_tidied a ht,
      bind_eq_ok.mpr ⟨ts', encodeItems_tidied rest hts, h⟩⟩

theorem encodeFields_tidied (fields : List Field) {es : List Entry}
    (h : encodeFields f fields = .ok es) : encodeFields f (tidiedFields fields) = .ok es := by
  cases fields with
  | nil => exact h
  | cons field rest =>
    cases field with
    | mk name a =>
      obtain ⟨t, ht, h⟩ := bind_eq_ok.mp h
      obtain ⟨es', hes, h⟩ := bind_eq_ok.mp h
      exact bind_eq_ok.mpr ⟨t, encode_tidied a ht,
        bind_eq_ok.mpr ⟨es', encodeFields_tidied rest hes, h⟩⟩

/-- The key that waits may be another one if no value takes it. -/
theorem encodeParts_tidied (waiting waiting' : Option (List Char)) (parts : List Part)
    {es : List Entry} (hwaiting : waiting' = waiting ∨ valueNext parts = false)
    (h : encodeParts f waiting parts = .ok es) :
    encodeParts f waiting' (tidiedParts parts) = .ok es := by
  cases parts with
  | nil =>
    rw [encodeParts] at h
    rw [tidiedParts, encodeParts]
    exact h
  | cons part rest =>
    cases part with
    | key k =>
      rw [encodeParts, bind_eq_ok] at h
      obtain ⟨t, ht, h⟩ := h
      rw [tidiedParts]
      split
      · rw [encodeParts, bind_eq_ok]
        exact ⟨t, encode_tidied k ht, encodeParts_tidied (some t) (some t) rest (.inl rfl) h⟩
      · rename_i hnext
        exact encodeParts_tidied (some t) waiting' rest (.inr (Bool.eq_false_iff.mpr hnext)) h
    | value v =>
      obtain rfl := hwaiting.resolve_right nofun
      cases waiting' with
      | none => cases h
      | some key =>
        obtain ⟨t, ht, h⟩ := bind_eq_ok.mp h
        obtain ⟨es', hes, h⟩ := bind_eq_ok.mp h
        exact bind_eq_ok.mpr ⟨t, encode_tidied v ht,
          bind_eq_ok.mpr ⟨es', encodeParts_tidied none none rest (.inl rfl) hes, h⟩⟩

end

end Argument

/-! ## Keys -/

theorem Key.ofArgument_failsFirst (a : Argument) : FailsFirst a.walk (Key.ofArgument a) :=
  .map _ a.encode_failsFirst

/--
**An argument has no key exactly if something on the way through it fails**: a part that fails by
itself, or a value for which no key waits, which fails before the value is handed over. The reason
that is reported is that of the first failure, wherever it stands; failures inside keys that never
get a value count. If there is none, those keys leave nothing in the key.
-/
theorem Key.ofArgument_fails_first (a : Argument) :
    (∀ reason, (∃ e, Key.ofArgument a = .error e ∧ e.reason = reason) ↔
      ∃ front visit back, a.walk = front ++ visit :: back ∧ visit.reason? = some reason ∧
        ∀ earlier ∈ front, earlier.reason? = none) ∧
    ∀ k, Key.ofArgument a = .ok k ↔
      (∀ visit ∈ a.walk, visit.reason? = none) ∧ Key.ofArgument a.tidied = .ok k := by
  refine ⟨(ofArgument_failsFirst a).error_iff, fun k => ?_⟩
  -- without its lone keys the argument has the same key, if it has one at all
  have htidied : ∀ k, Key.ofArgument a = .ok k → Key.ofArgument a.tidied = .ok k := by
    intro k hk
    obtain ⟨s, hs, hk⟩ := bind_eq_ok.mp hk
    exact bind_eq_ok.mpr ⟨s, a.encode_tidied hs, hk⟩
  constructor
  · intro hk
    exact ⟨(ofArgument_failsFirst a).ok_iff.mp ⟨k, hk⟩, htidied k hk⟩
  · intro hall
    obtain ⟨hpass, hk⟩ := hall
    obtain ⟨k', hk'⟩ := (ofArgument_failsFirst a).ok_iff.mpr hpass
    have hsame := (htidied k' hk').symm.trans hk
    rwa [Except.ok.inj hsame] at hk'

/-- A value without a key fails before it is looked at, and what fails in a replaced key counts. -/
example :
    Key.ofArgument (.map [.value (.failing "value")]) = .error .valueWithoutKey ∧
    Key.ofArgument (.map [.key (.failing "key"), .key .unit, .value .unit]) =
      .error (.failing "key") :=
  ⟨rfl, rfl⟩

end Recurrence
