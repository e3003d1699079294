import Recurrence.Proofs.Text.Bytes

/-!
# Looking for the first place is enough

Items are placed in a text if the text can be cut into pieces such that the items stand in front of
the pieces, in order (`Placed`). The check does not try all ways to cut: it takes the first place of
each item. That loses nothing. Whatever stands behind some place of an item also stands behind its
first place, where even more text is left (`placedIn_cons_iff`). So the item it stops at is the first
that cannot be placed together with those before it.

The check is made on bytes, and the text behind an item is a slice that begins at a number of bytes.
`Ending` tells what may come of that. The slices begin between characters, always, and the check
ends as the one on characters does (`checkBytes_eq`).
-/

namespace Recurrence.Text

/-! ## Places -/

/-- A text in front, and behind each item another one. -/
def Placed (content : String) (items : List String) : Prop :=
  ∃ (front : String) (behind : List String), behind.length = items.length ∧
    content = front ++ String.join (List.zipWith (· ++ ·) items behind)

/-- The same, item by item: each stands somewhere in the text, and the others behind it. -/
def PlacedIn (content : List Char) : List (List Char) → Prop
  | [] => True
  | item :: items => ∃ front rest, content = front ++ (item ++ rest) ∧ PlacedIn rest items

theorem placed_cons_iff {content item : String} {items : List String} :
    Placed content (item :: items) ↔
      ∃ front rest, content = front ++ (item ++ rest) ∧ Placed rest items := by
  constructor
  · intro h
    obtain ⟨front, behind, hlength, rfl⟩ := h
    cases behind with
    | nil => cases hlength
    | cons next behind =>
      refine ⟨front, _, ?_, next, behind, Nat.succ.inj hlength, rfl⟩
      rw [List.zipWith_cons_cons, String.join_cons, String.append_assoc]
  · intro h
    obtain ⟨front, rest, rfl, next, behind, hlength, rfl⟩ := h
    refine ⟨front, next :: behind, congrArg Nat.succ hlength, ?_⟩
    rw [List.zipWith_cons_cons, String.join_cons, String.append_assoc]

theorem placed_iff_placedIn {content : String} {items : List String} :
    Placed content items ↔ PlacedIn content.toList (items.map String.toList) := by
  induction items generalizing content with
  | nil =>
    have hempty : content = content ++ String.join [] := by rw [String.join_nil, String.append_empty]
    exact iff_of_true ⟨content, [], rfl, hempty⟩ trivial
  | cons item items ih =>
    rw [placed_cons_iff]
    constructor
    · intro h
      obtain ⟨front, rest, rfl, hrest⟩ := h
      refine ⟨front.toList, rest.toList, ?_, ih.mp hrest⟩
      rw [String.toList_append, String.toList_append]
    · intro h
      obtain ⟨front, rest, hcontent, hrest⟩ := h
      refine ⟨String.ofList front, String.ofList rest, ?_, ih.mpr ?_⟩
      · rw [String.ext_iff, hcontent, String.toList_append, String.toList_append,
          String.toList_ofList, String.toList_ofList]
      · rwa [String.toList_ofList]

section

variable {content item rest : List Char} {items more : List (List Char)}

/-- More text in front does no harm. -/
theorem PlacedIn.prepend (front : List Char) (h : PlacedIn content items) :
    PlacedIn (front ++ content) items := by
  cases items with
  | nil => trivial
  | cons item items =>
    obtain ⟨front', rest, rfl, hrest⟩ := h
    exact ⟨front ++ front', rest, (List.append_assoc ..).symm, hrest⟩

theorem PlacedIn.of_prefix (h : PlacedIn content items) (hmore : more <+: items) :
    PlacedIn content more := by
  obtain ⟨last, rfl⟩ := hmore
  induction more generalizing content with
  | nil => trivial
  | cons item more ih =>
    obtain ⟨front, rest, rfl, hrest⟩ := h
    exact ⟨front, rest, rfl, ih hrest⟩

/-! ## The first place of an item -/

theorem after?_eq_none (h : after? item content = none) : ¬ item <:+: content := by
  fun_induction after? item content with
  | case1 content hprefix => cases h
  | case2 hprefix =>
    intro hinfix
    rw [List.infix_nil, ← List.prefix_nil] at hinfix
    exact hprefix (List.isPrefixOf_iff_prefix.mpr hinfix)
  | case3 c cs hprefix ih =>
    intro hinfix
    rcases List.infix_cons_iff.mp hinfix with hfront | hlater
    · exact hprefix (List.isPrefixOf_iff_prefix.mpr hfront)
    · exact ih h hlater

theorem after?_eq_some (h : after? item content = some rest) :
    ∃ front, content = front ++ (item ++ rest) ∧ Earliest front item rest := by
  fun_induction after? item content with
  | case1 content hprefix =>
    obtain ⟨rest', rfl⟩ := List.isPrefixOf_iff_prefix.mp hprefix
    rw [List.drop_left] at h
    obtain rfl := Option.some.inj h
    exact ⟨[], rfl, earliest_nil⟩
  | case2 hprefix => cases h
  | case3 c cs hprefix ih =>
    obtain ⟨front, rfl, hearliest⟩ := ih h
    refine ⟨c :: front, rfl, hearliest.cons ?_⟩
    exact mt List.isPrefixOf_iff_prefix.mpr hprefix

/-- **The first place is as good as any**: what is placed behind some place of the item is placed
behind the first one. -/
theorem placedIn_cons_iff :
    PlacedIn content (item :: items) ↔
      ∃ rest, after? item content = some rest ∧ PlacedIn rest items := by
  constructor
  · intro h
    obtain ⟨front', rest', hcontent, hplaced⟩ := h
    cases hafter : after? item content with
    | none => exact absurd ⟨front', rest', hcontent ▸ List.append_assoc ..⟩ (after?_eq_none hafter)
    | some rest =>
      obtain ⟨front, rfl, hearliest⟩ := after?_eq_some hafter
      -- behind the first place there is at least as much text
      have hfront : front.length ≤ front'.length := hearliest front' rest' hcontent
      have hlength := congrArg List.length hcontent
      simp only [List.length_append] at hlength
      have hsuffix' : rest' <:+ front ++ (item ++ rest) :=
        ⟨front' ++ item, (List.append_assoc ..).trans hcontent.symm⟩
      have hsuffix : rest <:+ front ++ (item ++ rest) := ⟨front ++ item, List.append_assoc ..⟩
      obtain ⟨gap, rfl⟩ := List.suffix_of_suffix_length_le hsuffix' hsuffix (by omega)
      exact ⟨_, rfl, hplaced.prepend gap⟩
  · intro h
    obtain ⟨rest, hafter, hplaced⟩ := h
    obtain ⟨front, rfl, -⟩ := after?_eq_some hafter
    exact ⟨front, rest, rfl, hplaced⟩

theorem placedIn_cons_of_some (h : after? item content = some rest) :
    PlacedIn content (item :: items) ↔ PlacedIn rest items := by
  simp [placedIn_cons_iff, h]

theorem not_placedIn_cons_of_none (h : after? item content = none) :
    ¬ PlacedIn content (item :: items) := by
  simp [placedIn_cons_iff, h]

/-! ## The first missing item -/

theorem firstMissing?_eq_none_iff : firstMissing? content items = none ↔ PlacedIn content items := by
  induction items generalizing content with
  | nil => exact iff_of_true rfl trivial
  | cons item items ih =>
    rw [firstMissing?]
    cases hafter : after? item content with
    | none => exact iff_of_false (Option.some_ne_none item) (not_placedIn_cons_of_none hafter)
    | some rest => exact ih.trans (placedIn_cons_of_some hafter).symm

theorem firstMissing?_eq_some_iff :
    firstMissing? content items = some item ↔ ∃ before after, items = before ++ item :: after ∧
      PlacedIn content before ∧ ¬ PlacedIn content (before ++ [item]) := by
  induction items generalizing content with
  | nil => simp [firstMissing?]
  | cons next items ih =>
    rw [firstMissing?]
    cases hafter : after? next content with
    | none =>
      constructor
      · intro h
        obtain rfl := Option.some.inj h
        exact ⟨[], items, rfl, trivial, not_placedIn_cons_of_none hafter⟩
      · intro h
        obtain ⟨before, after, heq, hplaced, -⟩ := h
        cases before with
        | nil => exact congrArg some (List.cons.inj heq).1
        | cons first before =>
          obtain rfl := (List.cons.inj heq).1
          exact absurd hplaced (not_placedIn_cons_of_none hafter)
    | some rest =>
      refine ih.trans ⟨fun h => ?_, fun h => ?_⟩
      · obtain ⟨before, after, rfl, hplaced, hnot⟩ := h
        exact ⟨next :: before, after, rfl, (placedIn_cons_of_some hafter).mpr hplaced,
          mt (placedIn_cons_of_some hafter).mp hnot⟩
      · obtain ⟨before, after, heq, hplaced, hnot⟩ := h
        cases before with
        | nil =>
          obtain rfl := (List.cons.inj heq).1
          have hnext : PlacedIn content [next] := (placedIn_cons_of_some hafter).mpr trivial
          exact absurd hnext hnot
        | cons first before =>
          obtain ⟨rfl, rfl⟩ := List.cons.inj heq
          exact ⟨before, after, rfl, (placedIn_cons_of_some hafter).mp hplaced,
            mt (placedIn_cons_of_some hafter).mpr hnot⟩

end

/-! ## The check on bytes -/

/-- How the check ends. -/
inductive Ending where
  | passes
  /-- An item is missing, and the text says which. -/
  | fails (text : String)
  /-- A slice would begin inside a character, or behind the end. -/
  | splits

/-- The ending that goes with the first missing item, if there is one. -/
def Ending.of (content : String) : Option (List Char) → Ending
  | none => .passes
  | some item => .fails (missingText item content)

/-- The check, with the bytes that remain behind the items found so far. -/
def checkBytes (content : String) (remaining : List UInt8) : List String → Ending
  | [] => .passes
  | item :: items =>
    match findBytes? (bytesOf item) remaining with
    | none => .fails (missingText item.toList content)
    | some index =>
      let next := index + (bytesOf item).length
      if isBoundary remaining next then checkBytes content (remaining.drop next) items else .splits

theorem checkBytes_eq (content : String) (remaining : List Char) (items : List String) :
    checkBytes content (utf8 remaining) items =
      .of content (firstMissing? remaining (items.map String.toList)) := by
  induction items generalizing remaining with
  | nil => rfl
  | cons item items ih =>
    rw [checkBytes, bytesOf_eq_utf8, List.map_cons, firstMissing?]
    cases hafter : after? item.toList remaining with
    | none =>
      rw [findBytes?_eq_none (after?_eq_none hafter)]
      rfl
    | some rest =>
      obtain ⟨front, rfl, hearliest⟩ := after?_eq_some hafter
      rw [findBytes?_eq_some hearliest]
      dsimp only
      rw [← List.length_append, ← utf8_append, ← List.append_assoc]
      have hboundary : isBoundary (utf8 (front ++ item.toList ++ rest))
          (utf8 (front ++ item.toList)).length = true :=
        isBoundary_iff.mpr ⟨front ++ item.toList, rest, rfl, rfl⟩
      rw [if_pos hboundary, utf8_drop]
      exact ih rest

/--
**The check passes exactly if the items can be placed in order**, whatever the text and the items
are. If they cannot, it fails and names the first item that cannot be placed together with those
before it. On bytes it ends in the same way, so no slice ever begins inside a character.
-/
theorem check_inOrder (content : String) (items : List String) :
    checkBytes content (bytesOf content) items =
      .of content (firstMissing? content.toList (items.map String.toList)) ∧
    (firstMissing? content.toList (items.map String.toList) = none ↔ Placed content items) ∧
    ∀ item : String, firstMissing? content.toList (items.map String.toList) = some item.toList ↔
      ∃ before after, items = before ++ item :: after ∧
        (∀ fewer, fewer <+: before → Placed content fewer) ∧ ¬ Placed content (before ++ [item]) := by
  refine ⟨bytesOf_eq_utf8 content ▸ checkBytes_eq content content.toList items,
    firstMissing?_eq_none_iff.trans placed_iff_placedIn.symm, fun item => ?_⟩
  rw [firstMissing?_eq_some_iff]
  constructor
  · intro h
    obtain ⟨befores, afters, heq, hplaced, hnot⟩ := h
    obtain ⟨before, others, rfl, rfl, hothers⟩ := List.map_eq_append_iff.mp heq
    obtain ⟨item', after, rfl, hitem, rfl⟩ := List.map_eq_cons_iff.mp hothers
    obtain rfl := String.toList_inj.mp hitem
    refine ⟨before, after, rfl, fun fewer hfewer => ?_, ?_⟩
    · exact placed_iff_placedIn.mpr (hplaced.of_prefix (hfewer.map String.toList))
    · rw [placed_iff_placedIn, List.map_append]
      exact hnot
  · intro h
    obtain ⟨before, after, rfl, hplaced, hnot⟩ := h
    refine ⟨before.map String.toList, after.map String.toList, ?_, ?_, ?_⟩
    · rw [List.map_append, List.map_cons]
    · exact placed_iff_placedIn.mp (hplaced before List.prefix_rfl)
    · rw [placed_iff_placedIn, List.map_append] at hnot
      exact hnot

/-- Each item stands in the text, but not behind the other. -/
example : firstMissing? "aba".toList ["ab".toList, "ba".toList] = some "ba".toList := by decide

end Recurrence.Text
