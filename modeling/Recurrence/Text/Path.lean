import Recurrence.Text.Pieces

/-!
# Paths

A path is a list of names with slashes between them. Empty names and single dots mean nothing, two
dots mean the directory above, and a path that starts with a slash starts at the root.
-/

namespace Recurrence.Text.Path

/-- Does a name mean nothing? -/
def isIdle (name : List Char) : Bool := name = [] || name = ['.']

def isAbsolute (path : List Char) : Bool := path.head? = some '/'

/-- The names that mean something. -/
def names (path : List Char) : List (List Char) :=
  (pieces '/' path).filter fun name => !isIdle name

/-- The last name, unless it is the directory above. -/
def fileName? (path : List Char) : Option (List Char) :=
  (names path).getLast?.filter (· ≠ ['.', '.'])

/-- A path without idle names at its two ends. -/
def trimmed (path : List Char) : List Char :=
  joinedBy '/' (((pieces '/' path).dropWhile isIdle).reverse.dropWhile isIdle).reverse

/-- Where a file comes to lie that is to be put into a directory. -/
structure Place where
  /-- Is it in that directory? Then `path` starts there. -/
  inside : Bool
  path : List Char
  fileName : List Char
deriving DecidableEq, Repr

/-- The place of `name.extension`; an absolute name does not care about the directory. -/
def place (name extension : List Char) : Place :=
  let path := name ++ '.' :: extension
  let fileName := (fileName? path).getD []
  if isAbsolute path then ⟨false, path, fileName⟩ else ⟨true, trimmed path, fileName⟩

end Recurrence.Text.Path
