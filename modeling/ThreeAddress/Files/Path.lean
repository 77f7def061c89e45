import ThreeAddress.Files.Basic

/-!
# Paths

A path is a text of names with slashes between them. `Path.ofString` takes it
apart: where the walk starts, the names to follow, and whether a slash ends
it, which asks for a directory. Several slashes in a row count as one, so
`.//a` and `./a` follow the same names.

A `Place` is a position in the tree of directories, whatever path led there, and
an `Entry` is what stands at it.
-/

namespace ThreeAddress

/-- The names that lead from the root of the tree down to a file or a
directory. The root is `[]`. -/
abbrev Place := List String

/-- What is at a place. -/
inductive Entry where
  | directory
  | file (content : Bytes)
  | absent
  deriving DecidableEq, Repr

/-- The most bytes that a name may have. -/
def Place.longestName : Nat := 255

/-- Where a name leads from a directory: `.` stays, `..` goes up, any other
name goes down. The root is above itself. -/
def Place.step (dir : Place) (name : String) : Except FileFault Place :=
  if name = "." then .ok dir
  else if name = ".." then .ok dir.dropLast
  else if longestName < name.utf8ByteSize then .error .tooLong
  else .ok (dir ++ [name])

/-- A path, taken apart. -/
structure Path where
  /-- The walk starts at the root, not at the working directory. -/
  absolute : Bool
  names : List String
  /-- A slash ends the path. -/
  slashed : Bool
  deriving DecidableEq, Repr

namespace Path

/-- The most bytes that a path may have. -/
def longest : Nat := 4095

/-- The names of a path: the longest runs of characters without a slash. -/
def namesOf (text : List Char) : List String :=
  ((text.splitBy fun a b => a ≠ '/' ∧ b ≠ '/').filter (· ≠ ['/'])).map String.ofList

def ofString (text : String) : Except FileFault Path :=
  let chars := text.toList
  if '\x00' ∈ chars then .error .invalid
  else if longest < text.utf8ByteSize then .error .tooLong
  else if chars = [] then .error .absent
  else .ok ⟨chars.head? = some '/', namesOf chars, chars.getLast? = some '/'⟩

/-- The names of the directories on the way. -/
def way (p : Path) : List String :=
  p.names.dropLast

/-- The name at the end of the way. A path without names is where it starts. -/
def last (p : Path) : String :=
  p.names.getLast?.getD "."

end Path

end ThreeAddress
