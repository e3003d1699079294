import Recurrence.Log

/-!
# Reports

What a task shows: lines of output, lines of the log, and the failure that ended it, if one did.
Reports are joined in order, and nothing follows a failure.
-/

namespace Recurrence.Command

structure Report where
  output : List String
  log : List Log.Line
  failure : Option String := none
deriving DecidableEq, Repr

namespace Report

def empty : Report := ⟨[], [], none⟩

/-- A line of output. -/
def say (line : String) : Report := ⟨[line], [], none⟩

/-- Lines of the log. -/
def note (lines : List Log.Line) : Report := ⟨[], lines, none⟩

/-- A failure. -/
def fail (message : String) : Report := ⟨[], [], some message⟩

/-- One report and then another, unless the first ended in a failure. -/
def andThen (a b : Report) : Report :=
  match a.failure with
  | some _ => a
  | none => ⟨a.output ++ b.output, a.log ++ b.log, b.failure⟩

/-- All reports, up to the first failure. -/
def all (reports : List Report) : Report := reports.foldr andThen empty

/-- Keeps some of the log. -/
def filterLog (r : Report) (p : Log.Line → Bool) : Report := { r with log := r.log.filter p }

theorem empty_andThen (r : Report) : empty.andThen r = r := rfl

theorem andThen_empty (r : Report) : r.andThen empty = r := by
  obtain ⟨output, log, failure⟩ := r
  cases failure <;> simp [andThen, empty]

theorem andThen_assoc (a b c : Report) : (a.andThen b).andThen c = a.andThen (b.andThen c) := by
  obtain ⟨ao, al, af⟩ := a
  obtain ⟨bo, bl, bf⟩ := b
  cases af <;> cases bf <;> simp [andThen]

end Report

end Recurrence.Command
