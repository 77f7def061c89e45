import ThreeAddress.Files.Path

/-!
# A file system as a value

A `Disk` holds files, directories and a working directory. A directory stands in
directories, up to the root, whether these are listed or not. A path is followed
name by name: each name on the way has to be a directory, so `no/../a` is refused
when there is no `no`. The errors show a path as it was given.
-/

namespace ThreeAddress

/-- The files of a tree of directories, seen from one of them. -/
structure Disk where
  /-- The directory in which a path starts. -/
  working : Place
  /-- What is in the files, each at its own place. -/
  files : List (Place × Bytes) := []
  /-- The directories besides the working one and those above it. -/
  directories : List Place := []
  deriving DecidableEq, Repr

namespace Disk

/-- Whether a directory is at a place: the working one, a listed one, or one that
leads there. -/
def isDirectory (d : Disk) (place : Place) : Bool :=
  (d.working :: d.directories).any place.isPrefixOf

/-- What is at a place. -/
def entry (d : Disk) (place : Place) : Entry :=
  if d.isDirectory place then .directory
  else
    match d.files.lookup place with
    | some content => .file content
    | none => .absent

/-- The directory of a name in a directory. -/
def enter (d : Disk) (dir : Place) (name : String) : Except FileFault Place := do
  let place ← Place.step dir name
  match d.entry place with
  | .directory => .ok place
  | .file _ => .error .notDirectory
  | .absent => .error .absent

/-- The directory that holds the last name of a path. -/
def parent (d : Disk) (p : Path) : Except FileFault Place :=
  p.way.foldlM d.enter (if p.absolute then [] else d.working)

/-- What a path leads to. Before a slash only a directory may stand. -/
def find (d : Disk) (path : String) : Except FileFault Entry := do
  let p ← Path.ofString path
  let place ← Place.step (← d.parent p) p.last
  match d.entry place with
  | .file content => if p.slashed then .error .notDirectory else .ok (.file content)
  | e => .ok e

/-- The content of a file. A directory can be opened and not read. -/
def fetch (d : Disk) (path : String) : Except FileError Bytes :=
  match d.find path with
  | .ok (.file content) => .ok content
  | .ok .directory => .error ⟨.reading, path, .directory⟩
  | .ok .absent => .error ⟨.opening, path, .absent⟩
  | .error fault => .error ⟨.opening, path, fault⟩

/-- Where a path lets a file be written. A path that a slash ends asks for a
directory, whether there is one or not. -/
def target (d : Disk) (path : String) : Except FileFault Place := do
  let p ← Path.ofString path
  let dir ← d.parent p
  if p.slashed then .error .directory
  let place ← Place.step dir p.last
  if d.entry place = .directory then .error .directory
  return place

/-- Puts a file at a place, instead of the one that was there. -/
def put (d : Disk) (place : Place) (content : Bytes) : Disk :=
  { d with files := (place, content) :: d.files.filter (·.1 ≠ place) }

/-- Makes `content` the content of a file. -/
def store (d : Disk) (path : String) (content : Bytes) : Except FileError Disk :=
  match d.target path with
  | .ok place => .ok (d.put place content)
  | .error fault => .error ⟨.opening, path, fault⟩

/-- The files of the working directory, by name. -/
def listing (d : Disk) : List (String × Bytes) :=
  d.files.filterMap fun (place, content) =>
    if place.dropLast = d.working then place.getLast?.map (·, content) else none

/-- The disk as a file system; a refused write leaves it as it was. -/
def system : Files (StateM Disk) where
  read path := fun d => (d.fetch path, d)
  write path text := fun d =>
    match d.store path (Bytes.ofString text) with
    | .ok after => (.ok (), after)
    | .error e => (.error e, d)

end Disk

end ThreeAddress
