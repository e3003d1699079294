import Recurrence.Text.InOrder

/-!
# Texts as bytes

A text is kept in UTF-8, and it is searched and cut by counting bytes. Only the first byte of a
character looks like one (`begins_iff`). So the bytes of a text stand nowhere but where the text
itself stands (`occurs_of_utf8`), and one byte tells whether a place lies between two characters
(`isBoundary_iff`).
-/

namespace Recurrence.Text

/-- The bytes a text is kept as. -/
def bytesOf (s : String) : List UInt8 := s.toByteArray.data.toList

/-- The bytes of its characters, one after the other. -/
def utf8 (cs : List Char) : List UInt8 := cs.flatMap String.utf8EncodeChar

/-- Does a byte begin a character? The others are `10xxxxxx` in binary. -/
def begins (byte : UInt8) : Bool := byte < 0x80 || 0xC0 ≤ byte

/-- May a slice begin here? -/
def isBoundary (bytes : List UInt8) (index : Nat) : Bool :=
  index == 0 || match bytes[index]? with
    | some byte => begins byte
    | none => index == bytes.length

/-- The first place at which some bytes stand among others. -/
def findBytes? (item bytes : List UInt8) : Option Nat :=
  (List.range (bytes.length + 1)).find? fun index => item.isPrefixOf (bytes.drop index)

theorem bytesOf_eq_utf8 (s : String) : bytesOf s = utf8 s.toList := by
  rw [bytesOf, ← String.utf8Encode_toList]
  exact List.toList_data_toByteArray

variable {item content front rest : List Char} {c : Char} {index : Nat}

theorem utf8_cons : utf8 (c :: rest) = String.utf8EncodeChar c ++ utf8 rest := List.flatMap_cons

theorem utf8_append : utf8 (front ++ rest) = utf8 front ++ utf8 rest := List.flatMap_append

theorem utf8_drop : (utf8 (front ++ rest)).drop (utf8 front).length = utf8 rest := by
  rw [utf8_append, List.drop_left]

theorem utf8_prefix_iff : utf8 item <+: utf8 content ↔ item <+: content := by
  constructor
  · intro h
    obtain ⟨rest, hrest⟩ := h
    apply List.isPrefix_of_utf8Encode_append_eq_utf8Encode rest.toByteArray
    rw [List.utf8Encode, List.utf8Encode, ← List.toByteArray_append]
    exact congrArg List.toByteArray hrest
  · intro h
    obtain ⟨rest, rfl⟩ := h
    exact ⟨utf8 rest, utf8_append.symm⟩

/-! ## First bytes -/

theorem begins_ofNat {n : Nat} (h : n < 256) :
    begins (UInt8.ofNat n) = true ↔ n < 128 ∨ 192 ≤ n := by
  rw [begins, Bool.or_eq_true, decide_eq_true_iff, decide_eq_true_iff, UInt8.lt_iff_toNat_lt,
    UInt8.le_iff_toNat_le, UInt8.toNat_ofNat_of_lt' h]
  rfl

theorem not_begins_ofNat (n : Nat) : begins (UInt8.ofNat (n % 64 + 128)) = false := by
  rw [← Bool.not_eq_true, begins_ofNat (by omega)]
  omega

/-- A character is a first byte and others that are none, however many there are. -/
theorem utf8EncodeChar_eq (c : Char) :
    ∃ first others, String.utf8EncodeChar c = first :: others ∧ begins first = true ∧
      ∀ byte ∈ others, begins byte = false := by
  unfold String.utf8EncodeChar
  dsimp only
  split
  · exact ⟨_, [], rfl, (begins_ofNat (by omega)).mpr (by omega), List.forall_mem_nil _⟩
  split
  · exact ⟨_, _, rfl, (begins_ofNat (by omega)).mpr (by omega),
      List.forall_mem_singleton.mpr (not_begins_ofNat _)⟩
  split
  · exact ⟨_, _, rfl, (begins_ofNat (by omega)).mpr (by omega),
      List.forall_mem_cons.mpr ⟨not_begins_ofNat _,
        List.forall_mem_singleton.mpr (not_begins_ofNat _)⟩⟩
  · exact ⟨_, _, rfl, (begins_ofNat (by omega)).mpr (by omega),
      List.forall_mem_cons.mpr ⟨not_begins_ofNat _, List.forall_mem_cons.mpr ⟨not_begins_ofNat _,
        List.forall_mem_singleton.mpr (not_begins_ofNat _)⟩⟩⟩

/-- **Of the bytes of a character only the first looks like a first byte.** -/
theorem begins_iff (h : index < (String.utf8EncodeChar c).length) :
    begins (String.utf8EncodeChar c)[index] = true ↔ index = 0 := by
  obtain ⟨first, others, hc, hfirst, hothers⟩ := utf8EncodeChar_eq c
  simp only [hc] at h ⊢
  cases index with
  | zero => exact iff_of_true hfirst rfl
  | succ k =>
    have hother := hothers _ (List.getElem_mem (Nat.lt_of_succ_lt_succ h))
    exact iff_of_false (Bool.eq_false_iff.mp hother) k.succ_ne_zero

theorem getElem?_inside (h : index < (String.utf8EncodeChar c).length) :
    (utf8 (c :: rest))[index]? = some (String.utf8EncodeChar c)[index] := by
  rw [utf8_cons, List.getElem?_append_left h, List.getElem?_eq_getElem h]

theorem getElem?_behind (h : (String.utf8EncodeChar c).length ≤ index) :
    (utf8 (c :: rest))[index]? = (utf8 rest)[index - (String.utf8EncodeChar c).length]? := by
  rw [utf8_cons, List.getElem?_append_right h]

theorem utf8EncodeChar_pos (c : Char) : 0 < (String.utf8EncodeChar c).length :=
  String.length_utf8EncodeChar c ▸ c.utf8Size_pos

theorem begins_head {byte : UInt8} (h : (utf8 content)[0]? = some byte) : begins byte = true := by
  cases content with
  | nil => cases h
  | cons c rest =>
    rw [getElem?_inside (utf8EncodeChar_pos c)] at h
    obtain rfl := Option.some.inj h
    exact (begins_iff _).mpr rfl

/-! ## Where a text may be cut -/

/-- **One byte tells whether a place lies between two characters**, or at one of the ends. -/
theorem isBoundary_iff :
    isBoundary (utf8 content) index = true ↔
      ∃ front rest, content = front ++ rest ∧ index = (utf8 front).length := by
  constructor
  · intro h
    induction content generalizing index with
    | nil =>
      have hzero : index = 0 := by simpa [isBoundary, utf8] using h
      exact ⟨[], [], rfl, hzero⟩
    | cons c rest ih =>
      rcases Nat.eq_zero_or_pos index with rfl | hpos
      · exact ⟨[], c :: rest, rfl, rfl⟩
      rw [isBoundary, beq_false_of_ne (Nat.ne_of_gt hpos), Bool.false_or] at h
      rcases Nat.lt_or_ge index (String.utf8EncodeChar c).length with hinside | hbehind
      · rw [getElem?_inside hinside] at h
        exact absurd ((begins_iff hinside).mp h) (Nat.ne_of_gt hpos)
      · -- the same byte is looked at behind the first character
        have hrest : isBoundary (utf8 rest) (index - (String.utf8EncodeChar c).length) = true := by
          rw [getElem?_behind hbehind] at h
          rw [isBoundary, Bool.or_eq_true]
          right
          split at h
          · assumption
          · rw [utf8_cons, List.length_append, beq_iff_eq] at h
            exact beq_iff_eq.mpr (by omega)
        obtain ⟨front, rest', rfl, hindex⟩ := ih hrest
        refine ⟨c :: front, rest', rfl, ?_⟩
        rw [utf8_cons, List.length_append]
        omega
  · intro h
    obtain ⟨front, rest, rfl, rfl⟩ := h
    rw [isBoundary, Bool.or_eq_true, utf8_append, List.getElem?_append_right (Nat.le_refl _),
      Nat.sub_self]
    right
    split
    · rename_i byte hbyte
      exact begins_head hbyte
    · rename_i hnone
      rw [List.getElem?_eq_none_iff] at hnone
      rw [List.length_append, beq_iff_eq]
      omega

/-! ## Where a text occurs -/

/-- **The bytes of a text stand nowhere but where the text does.** -/
theorem occurs_of_utf8 (hitem : item ≠ []) (h : utf8 item <+: (utf8 content).drop index) :
    ∃ front rest, content = front ++ (item ++ rest) ∧ index = (utf8 front).length := by
  -- the first byte of the text begins a character, so the place lies between two of them
  have hboundary : isBoundary (utf8 content) index = true := by
    obtain ⟨c, cs, rfl⟩ := List.exists_cons_of_ne_nil hitem
    obtain ⟨byte, hbyte⟩ : ∃ byte, (utf8 (c :: cs))[0]? = some byte :=
      ⟨_, getElem?_inside (utf8EncodeChar_pos c)⟩
    have hplace : (utf8 content)[index]? = some byte := by
      obtain ⟨more, hmore⟩ := h
      rw [← Nat.add_zero index, ← List.getElem?_drop, ← hmore, List.getElem?_append, hbyte]
      exact if_pos (List.getElem?_eq_some_iff.mp hbyte).1
    rw [isBoundary, hplace, Bool.or_eq_true]
    exact .inr (begins_head hbyte)
  obtain ⟨front, more, rfl, rfl⟩ := isBoundary_iff.mp hboundary
  rw [utf8_drop, utf8_prefix_iff] at h
  obtain ⟨rest, rfl⟩ := h
  exact ⟨front, rest, rfl, rfl⟩

theorem findBytes?_eq_none (h : ¬ item <:+: content) :
    findBytes? (utf8 item) (utf8 content) = none := by
  rw [findBytes?, List.find?_range_eq_none]
  intro index _
  rw [Bool.not_eq_true', Bool.eq_false_iff, ne_eq, List.isPrefixOf_iff_prefix]
  intro hprefix
  apply h
  rcases Decidable.em (item = []) with rfl | hitem
  · exact List.nil_infix
  · obtain ⟨front, rest, rfl, -⟩ := occurs_of_utf8 hitem hprefix
    exact ⟨front, rest, List.append_assoc ..⟩

/-- No place of the item has less text in front of it. -/
def Earliest (front item rest : List Char) : Prop :=
  ∀ front' rest', front ++ (item ++ rest) = front' ++ (item ++ rest') →
    front.length ≤ front'.length

theorem earliest_nil : Earliest [] item rest := fun _ _ _ => Nat.zero_le _

theorem Earliest.cons (h : Earliest front item rest)
    (hfront : ¬ item <+: c :: (front ++ (item ++ rest))) : Earliest (c :: front) item rest := by
  intro front' rest' heq
  cases front' with
  | nil => exact absurd ⟨rest', heq.symm⟩ hfront
  | cons d front' => exact Nat.succ_le_succ (h front' rest' (List.cons.inj heq).2)

/-- Any other place has the whole of that text in front of it. -/
theorem Earliest.prefix_of_eq {front' rest' : List Char} (h : Earliest front item rest)
    (heq : front ++ (item ++ rest) = front' ++ (item ++ rest')) : front <+: front' :=
  List.prefix_of_prefix_length_le (List.prefix_append front _) (heq ▸ List.prefix_append front' _)
    (h front' rest' heq)

/-- The first place counted in bytes is the first one counted in characters. -/
theorem findBytes?_eq_some (h : Earliest front item rest) :
    findBytes? (utf8 item) (utf8 (front ++ (item ++ rest))) = some (utf8 front).length := by
  rw [findBytes?, List.find?_range_eq_some, List.isPrefixOf_iff_prefix, List.mem_range]
  refine ⟨?_, ?_, fun index hindex => ?_⟩
  · rw [utf8_drop, utf8_prefix_iff]
    exact List.prefix_append item rest
  · rw [utf8_append, List.length_append]
    omega
  · rw [Bool.not_eq_true', Bool.eq_false_iff, ne_eq, List.isPrefixOf_iff_prefix]
    intro hprefix
    rcases Decidable.em (item = []) with rfl | hitem
    · have hfront : front <+: [] := h.prefix_of_eq (List.nil_append _).symm
      obtain rfl := List.prefix_nil.mp hfront
      exact Nat.not_lt_zero _ hindex
    · obtain ⟨front', rest', heq, rfl⟩ := occurs_of_utf8 hitem hprefix
      have hfront : front <+: front' := h.prefix_of_eq heq
      exact Nat.not_le_of_lt hindex (utf8_prefix_iff.mpr hfront).length_le

end Recurrence.Text
