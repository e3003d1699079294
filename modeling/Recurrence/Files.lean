import Recurrence.Text.Path

/-!
# Files

A tree of files, and what a path names in it. A path is walked name by name, and every name but the
last must lead to a directory; so a path that goes down and up again may fail on the way.
-/

namespace Recurrence

/-- Why a file cannot be used. -/
inductive FileFault where
  | missing
  | isDirectory
  | notDirectory
  | nameTooLong
  | nameHasNul
  /-- Whatever else the system says, in its own words. -/
  | other (message : String)
deriving DecidableEq, Repr

def FileFault.message : FileFault → String
  | .missing => "No such file or directory (os error 2)"
  | .isDirectory => "Is a directory (os error 21)"
  | .notDirectory => "Not a directory (os error 20)"
  | .nameTooLong => "File name too long (os error 36)"
  | .nameHasNul => "file name contained an unexpected NUL byte"
  | .other message => message

/-- Files by the names that lead to them from the root. -/
structure Files where
  contents : List (List (List Char) × String)
  /-- The directory in which relative paths start. -/
  home : List (List Char)

namespace Files

/-- What is found at a place. -/
inductive Entry where
  | file (content : String)
  | directory
  | nothing

/-- The file or directory at a place: whatever leads to a file or to home is a directory. -/
def entry (files : Files) (place : List (List Char)) : Entry :=
  match files.contents.find? fun f => f.1 == place with
  | some f => .file f.2
  | none =>
    if place.isPrefixOf files.home || files.contents.any fun f => place.isPrefixOf f.1 then
      .directory
    else .nothing

/-- The longest name there is, in bytes. -/
def nameLimit : Nat := 255

/-- The longest path there is, in bytes, whatever the names in it mean. -/
def pathLimit : Nat := 4095

/-- Follows one name. -/
def step (files : Files) (place : List (List Char)) (name : List Char) :
    Except FileFault (List (List Char)) :=
  match files.entry place with
  | .file _ => .error .notDirectory
  | .nothing => .error .missing
  | .directory =>
    if Text.Path.isIdle name then .ok place
    else if name = ['.', '.'] then .ok place.dropLast
    else if nameLimit < (String.ofList name).utf8ByteSize then .error .nameTooLong
    else .ok (place ++ [name])

/-- What a path leads to: a name in a directory that exists. -/
structure Target where
  directory : List (List Char)
  name : List Char
  /-- Does the path end in a slash, as only the path of a directory may? -/
  mustBeDirectory : Bool

def target (files : Files) (path : String) : Except FileFault Target := do
  let cs := path.toList
  if cs = [] then throw .missing
  if cs.contains '\x00' then throw .nameHasNul
  if pathLimit < path.utf8ByteSize then throw .nameTooLong
  let names := ((Text.pieces '/' cs).reverse.dropWhile (· = [])).reverse
  let start := if Text.Path.isAbsolute cs then [] else files.home
  -- The idle name at the end asks for a directory there.
  let directory ← (names.dropLast ++ [[]]).foldlM files.step start
  return ⟨directory, names.getLastD [], cs.getLast? = some '/'⟩

/-- The content of a file. -/
def read (files : Files) (path : String) : Except FileFault String := do
  let target ← files.target path
  match files.entry (← files.step target.directory target.name) with
  | .file content => if target.mustBeDirectory then .error .notDirectory else .ok content
  | .directory => .error .isDirectory
  | .nothing => .error .missing

/-- Writes a file, in place of an old one if there is one. The path of a directory is refused before
its last name is looked at. -/
def write (files : Files) (path content : String) : Except FileFault Files := do
  let target ← files.target path
  if target.mustBeDirectory then throw .isDirectory
  let place ← files.step target.directory target.name
  match files.entry place with
  | .directory => .error .isDirectory
  | .file _ | .nothing =>
    let others := files.contents.filter fun f => f.1 != place
    .ok { files with contents := others ++ [(place, content)] }

end Files

end Recurrence
