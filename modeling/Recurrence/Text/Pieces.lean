/-!
# Cutting text

A text is cut at every occurrence of a separator; between two separators next to each other stands
an empty piece. `joinedBy_pieces` says that nothing else is lost: putting the separators back gives
the text.
-/

namespace Recurrence.Text

/-- The pieces between separators; there is always one more than there are separators. -/
def pieces (separator : Char) : List Char → List (List Char)
  | [] => [[]]
  | c :: cs =>
    if c = separator then [] :: pieces separator cs
    else
      match pieces separator cs with
      | [] => [[c]]
      | piece :: rest => (c :: piece) :: rest

/-- Puts the separators back. -/
def joinedBy (separator : Char) : List (List Char) → List Char
  | [] => []
  | [piece] => piece
  | piece :: rest => piece ++ separator :: joinedBy separator rest

theorem pieces_ne_nil (separator : Char) (cs : List Char) : pieces separator cs ≠ [] := by
  cases cs with
  | nil => simp [pieces]
  | cons c cs => unfold pieces; split <;> (try split) <;> simp

theorem joinedBy_cons_cons (separator c : Char) (piece : List Char) (rest : List (List Char)) :
    joinedBy separator ((c :: piece) :: rest) = c :: joinedBy separator (piece :: rest) := by
  cases rest <;> rfl

theorem joinedBy_pieces (separator : Char) (cs : List Char) :
    joinedBy separator (pieces separator cs) = cs := by
  induction cs with
  | nil => rfl
  | cons c cs ih =>
    unfold pieces
    cases hp : pieces separator cs with
    | nil => exact absurd hp (pieces_ne_nil separator cs)
    | cons piece rest =>
      rw [hp] at ih
      by_cases hc : c = separator
      · rw [if_pos hc, hc]
        show separator :: joinedBy separator (piece :: rest) = _
        rw [ih]
      · rw [if_neg hc]
        show joinedBy separator ((c :: piece) :: rest) = _
        rw [joinedBy_cons_cons, ih]

/-- The words of a text: what blanks separate. Only the blank itself does. -/
def words (cs : List Char) : List (List Char) :=
  (pieces ' ' cs).filter fun piece => !piece.isEmpty

/-- The words of all arguments, in order. -/
def argumentWords (arguments : List String) : List String :=
  (arguments.flatMap fun a => words a.toList).map String.ofList

/-- A line without the carriage return that belongs to its end. -/
def withoutReturn (line : List Char) : List Char :=
  if line.getLast? = some '\r' then line.dropLast else line

/-- The lines of a text. What follows the last line feed is a line only if there is something. -/
def lines (cs : List Char) : List (List Char) :=
  let all := pieces '\n' cs
  all.dropLast.map withoutReturn ++ (all.getLast?.toList.filter fun line => !line.isEmpty)

end Recurrence.Text
