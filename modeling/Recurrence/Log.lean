/-!
# Log lines

Every part of the library reports what it did as lines of text with a level. The operations
themselves only say *what* happened, in their own types; the wording lives beside those types.
-/

namespace Recurrence

/-- How much a line matters, from the least to the most important. -/
inductive Log.Level where
  | trace
  | debug
  | info
deriving DecidableEq, Repr

/-- Position in the order of importance. -/
def Log.Level.rank : Log.Level → Nat
  | .trace => 0
  | .debug => 1
  | .info => 2

/-- The word in front of a line. -/
def Log.Level.tag : Log.Level → String
  | .trace => "TRACE"
  | .debug => "DEBUG"
  | .info => "INFO"

/-- One line of the log. -/
structure Log.Line where
  level : Log.Level
  text : String
deriving DecidableEq, Repr

/-- A line as it is written: its level, one blank, its text. -/
def Log.Line.render (line : Log.Line) : String :=
  line.level.tag ++ " " ++ line.text

end Recurrence
