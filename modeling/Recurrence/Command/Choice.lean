import Recurrence.Detector

/-!
# Choices

An option may allow only some values, each with a name to type, a title by which it is shown, and a
line of help.
-/

namespace Recurrence.Command

/-- One of the values of an option. -/
structure Choice (A : Type) where
  value : A
  name : String
  title : String
  help : String

/-- The policies of a cache, without their settings. -/
inductive CacheKind where
  | plain
  | manual
  | ttl
  | lru
deriving DecidableEq, Repr

/-- What may be done about a repeating expansion. -/
def cycleModes : List (Choice Detector.Mode) :=
  [ ⟨.describe, "describe", "Describe", "Render the repeating group in parentheses"⟩,
    ⟨.fail, "fail", "Fail", "Reject expansions that do not terminate"⟩ ]

/-- How results may be cached. -/
def cacheKinds : List (Choice CacheKind) :=
  [ ⟨.plain, "plain", "Plain", "Keep every result"⟩,
    ⟨.manual, "manual", "Manual", "Keep results until cleared or invalidated"⟩,
    ⟨.ttl, "ttl", "Ttl", "Keep results for a limited time"⟩,
    ⟨.lru, "lru", "Lru", "Keep a limited number of results"⟩ ]

namespace Choice

variable {A : Type}

/-- A name with its ASCII letters in lower case. -/
def folded (s : String) : List Char := s.toList.map Char.toLower

/-- The choice with a name; the case of ASCII letters may not matter. -/
def find? (choices : List (Choice A)) (ignoreCase : Bool) (text : String) : Option (Choice A) :=
  choices.find? fun c =>
    if ignoreCase then folded c.name == folded text else c.name == text

/-- What is said about a name that is no choice. -/
def invalidText (text : String) : String := "invalid variant: " ++ text

/-- The title of a value. -/
def titleOf [DecidableEq A] (choices : List (Choice A)) (value : A) : String :=
  ((choices.find? fun c => decide (c.value = value)).map (·.title)).getD ""

end Choice

end Recurrence.Command
