import Recurrence.Text.Quoted

/-!
# Occurrence in order

Do some items occur in a text one after the other, without overlapping? Each item is looked for
behind the leftmost occurrence of the one before it, which leaves the most text for those that
follow.
-/

namespace Recurrence.Text

/-- What follows the leftmost occurrence of an item. -/
def after? (item : List Char) (cs : List Char) : Option (List Char) :=
  if item.isPrefixOf cs then some (cs.drop item.length)
  else
    match cs with
    | [] => none
    | _ :: rest => after? item rest

/-- The first item that does not occur behind the ones before it. -/
def firstMissing? (content : List Char) : List (List Char) → Option (List Char)
  | [] => none
  | item :: items =>
    match after? item content with
    | none => some item
    | some rest => firstMissing? rest items

/-- What is said about a missing item. -/
def missingText (item : List Char) (content : String) : String :=
  "expected content not found, or out of order. expected: "
    ++ String.ofList (quoteShown item) ++ ", content:\n" ++ content

end Recurrence.Text
