import Recurrence.Cache.Shown
import Recurrence.Key.Basic
import Recurrence.Memo.Run

/-!
# Memoizers as they are shown

A memoizer is shown by its cache alone, since its computation has no text.
-/

namespace Recurrence

/-- A cache of numbers by keys, as it is shown. -/
def Cache.text? (c : Cache Key Int64) : Option String :=
  c.shown? Key.shownText fun v => intText v.toInt

/-- A memoizer of numbers by keys, as it is shown. -/
def Memo.text? (m : Memo Key Int64) : Option String :=
  m.cache.text?.map fun s =>
    "Memoized " ++ Cache.braced (" cache: RefCell " ++ Cache.braced (" value: " ++ s ++ " ")
      ++ ", .. ")

end Recurrence
