import ThreeAddress.Text.Bytes

/-!
# Files

What the commands ask of a file system: to read a whole file and to replace
one. `Files m` offers the two in a monad, so that the same commands run on the
files of a machine and on a file system that is a value.
-/

namespace ThreeAddress

/-- Why a file system refuses a path. -/
inductive FileFault where
  | absent
  | directory
  | notDirectory
  | tooLong
  | invalid
  | other (text : String)
  deriving DecidableEq, Repr

def FileFault.message : FileFault → String
  | .absent => "no such file or directory"
  | .directory => "is a directory"
  | .notDirectory => "not a directory"
  | .tooLong => "file name too long"
  | .invalid => "invalid argument"
  | .other text => text

/-- What was being done to a path. -/
inductive Access where
  | opening
  | reading
  deriving DecidableEq, Repr

def Access.word : Access → String
  | .opening => "open"
  | .reading => "read"

/-- A path that could not be used. -/
structure FileError where
  access : Access
  path : String
  fault : FileFault
  deriving DecidableEq, Repr

def FileError.message (e : FileError) : String :=
  e.access.word ++ " " ++ e.path ++ ": " ++ e.fault.message

/-- A file system. -/
structure Files (m : Type → Type) where
  /-- The content of a file. -/
  read : String → m (Except FileError Bytes)
  /-- Makes a text the whole content of a file, new or not. -/
  write : String → String → m (Except FileError Unit)

end ThreeAddress
