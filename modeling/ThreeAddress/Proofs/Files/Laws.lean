import ThreeAddress.Files.Disk
import ThreeAddress.Proofs.Attempt

/-!
# What is asked of a file system

Commands run on any file system. What they rely on is named here, for file systems
whose states are of any sort: reading and refused writing change nothing, a path
reads what stands where it leads, and a write makes the text the whole content of
the file that the path leads to and changes nothing else (`Files.Lawful`).

A disk is such a file system (`Disk.system_lawful`). No file is ever put in place of
a directory, so a path that led through directories still does.
-/

namespace ThreeAddress

/-- How the states of a file system look: what is at each place, and the place that
a path leads to. -/
structure FileView (σ ι : Type) where
  entry : σ → ι → Entry
  place : σ → String → Option ι

namespace Files

variable {σ ι : Type}

/-- What reading a path gives in a state. -/
def fetch (files : Files (StateM σ)) (st : σ) (path : String) : Except FileError Bytes :=
  ((files.read path).run st).1

/-- The laws of reading and writing. -/
structure Lawful (files : Files (StateM σ)) (view : FileView σ ι) : Prop where
  read_keeps : ∀ path st, (files.read path).run st = (files.fetch st path, st)
  read_finds : ∀ path st content, files.fetch st path = .ok content ↔
    ∃ place, view.place st path = some place ∧ view.entry st place = .file content
  refusal_keeps : ∀ path text st e after, (files.write path text).run st = (.error e, after) →
    after = st
  write_replaces : ∀ path text st after, (files.write path text).run st = (.ok (), after) →
    ∃ place, view.place st path = some place ∧ view.place after path = some place ∧
      view.entry after place = .file (Bytes.ofString text) ∧
      ∀ other, other ≠ place → view.entry after other = view.entry st other

/-- The file that the path leads to has the content, new or not, and nothing else
has changed. -/
structure Replaces (files : Files (StateM σ)) (view : FileView σ ι) (st : σ) (path : String)
    (content : Bytes) (after : σ) : Prop where
  rest : ∃ place, view.place st path = some place ∧ view.entry after place = .file content ∧
    ∀ other, other ≠ place → view.entry after other = view.entry st other
  read : files.fetch after path = .ok content

theorem Lawful.replaces {files : Files (StateM σ)} {view : FileView σ ι} (h : files.Lawful view)
    {path text : String} {st after : σ}
    (hwrite : (files.write path text).run st = (.ok (), after)) :
    files.Replaces view st path (Bytes.ofString text) after := by
  obtain ⟨place, hbefore, hafter, hentry, hrest⟩ := h.write_replaces path text st after hwrite
  exact ⟨⟨place, hbefore, hentry, hrest⟩, (h.read_finds path after _).mpr ⟨place, hafter, hentry⟩⟩

end Files

namespace Disk

variable {d after : Disk} {place other : Place} {content : Bytes}

/-! ## Places -/

theorem entry_eq_directory_iff : d.entry place = .directory ↔ d.isDirectory place = true := by
  unfold entry
  split
  · simp_all
  · cases d.files.lookup place <;> simp_all

theorem lookup_filter_of_ne (hne : other ≠ place) (files : List (Place × Bytes)) :
    (files.filter (·.1 ≠ place)).lookup other = files.lookup other := by
  induction files with
  | nil => rfl
  | cons file files ih =>
      by_cases hfile : file.1 = place
      · rw [List.filter_cons_of_neg (by simpa using hfile), ih, List.lookup_cons,
          beq_false_of_ne (hfile ▸ hne)]
      · rw [List.filter_cons_of_pos (by simpa using hfile), List.lookup_cons, List.lookup_cons, ih]

theorem entry_put_self (hplace : d.entry place ≠ .directory) :
    (d.put place content).entry place = .file content := by
  have hdir : ¬ d.isDirectory place = true := fun h => hplace (entry_eq_directory_iff.mpr h)
  show (if d.isDirectory place then _ else _) = _
  rw [if_neg hdir]
  simp [put]

theorem entry_put_of_ne (hne : other ≠ place) :
    (d.put place content).entry other = d.entry other := by
  have hlookup : (d.put place content).files.lookup other = d.files.lookup other := by
    show List.lookup other ((place, content) :: d.files.filter (·.1 ≠ place)) = _
    rw [List.lookup_cons, beq_false_of_ne hne, lookup_filter_of_ne hne]
  show (if d.isDirectory other then _ else _) = _
  rw [hlookup]
  rfl

theorem entry_put_of_directory (h : d.entry other = .directory) :
    (d.put place content).entry other = .directory := by
  rw [entry_eq_directory_iff] at h ⊢
  exact h

/-! ## Paths -/

theorem enter_put {dir : Place} {name : String} (h : d.enter dir name = .ok other) :
    (d.put place content).enter dir name = .ok other := by
  obtain ⟨there, hstep, hentry⟩ := bind_eq_ok_iff.mp h
  rw [enter, hstep, ok_bind]
  cases hthere : d.entry there with
  | directory =>
      have hkept : (d.put place content).entry there = .directory :=
        entry_put_of_directory hthere
      rw [hthere] at hentry
      rw [hkept]
      exact hentry
  | file | absent =>
      rw [hthere] at hentry
      cases hentry

theorem foldlM_enter_put {names : List String} {start : Place}
    (h : names.foldlM d.enter start = .ok other) :
    names.foldlM (d.put place content).enter start = .ok other := by
  induction names generalizing start with
  | nil => exact h
  | cons name names ih =>
      rw [List.foldlM_cons] at h ⊢
      obtain ⟨next, hnext, hrest⟩ := bind_eq_ok_iff.mp h
      rw [enter_put hnext, ok_bind]
      exact ih hrest

theorem parent_put {p : Path} (h : d.parent p = .ok other) :
    (d.put place content).parent p = .ok other := foldlM_enter_put h

theorem target_eq_ok {path : String} (h : d.target path = .ok place) :
    ∃ p dir, Path.ofString path = .ok p ∧ d.parent p = .ok dir ∧ p.slashed = false ∧
      Place.step dir p.last = .ok place ∧ d.entry place ≠ .directory := by
  obtain ⟨p, hp, h⟩ := bind_eq_ok_iff.mp h
  obtain ⟨dir, hdir, h⟩ := bind_eq_ok_iff.mp h
  split at h
  · cases h
  · rename_i hslashed
    obtain ⟨there, hthere, h⟩ := bind_eq_ok_iff.mp h
    split at h
    · cases h
    · rename_i hentry
      cases h
      exact ⟨p, dir, hp, hdir, by simpa using hslashed, hthere, hentry⟩

/-! ## The disk as a file system -/

/-- The place of a file that a path leads to, whether it is there or not. -/
def fileAt (d : Disk) (path : String) : Option Place :=
  (do
    let p ← Path.ofString path
    let place ← Place.step (← d.parent p) p.last
    if p.slashed then .error .directory else .ok place : Except FileFault Place).toOption

/-- What is at the places of a disk, and where paths lead. -/
def view : FileView Disk Place := ⟨entry, fileAt⟩

theorem fileAt_eq_some_iff {path : String} : d.fileAt path = some place ↔
    ∃ p dir, Path.ofString path = .ok p ∧ d.parent p = .ok dir ∧
      Place.step dir p.last = .ok place ∧ p.slashed = false := by
  have htoOption : ∀ x : Except FileFault Place, x.toOption = some place ↔ x = .ok place := by
    intro x
    cases x <;> simp [Except.toOption]
  unfold fileAt
  rw [htoOption]
  constructor
  · intro h
    obtain ⟨p, hp, h⟩ := bind_eq_ok_iff.mp h
    obtain ⟨dir, hdir, h⟩ := bind_eq_ok_iff.mp h
    obtain ⟨there, hthere, h⟩ := bind_eq_ok_iff.mp h
    split at h
    · cases h
    · rename_i hslashed
      cases h
      exact ⟨p, dir, hp, hdir, hthere, by simpa using hslashed⟩
  · rintro ⟨p, dir, hp, hdir, hplace, hslashed⟩
    rw [hp, ok_bind, hdir, ok_bind, hplace, ok_bind, hslashed]
    rfl

theorem find_eq_file_iff {path : String} : d.find path = .ok (.file content) ↔
    ∃ place, d.fileAt path = some place ∧ d.entry place = .file content := by
  constructor
  · intro h
    obtain ⟨p, hp, h⟩ := bind_eq_ok_iff.mp h
    obtain ⟨dir, hdir, h⟩ := bind_eq_ok_iff.mp h
    obtain ⟨place, hplace, h⟩ := bind_eq_ok_iff.mp h
    cases hentry : d.entry place with
    | directory | absent =>
        rw [hentry] at h
        cases h
    | file found =>
        rw [hentry] at h
        cases hslashed : p.slashed with
        | true =>
            rw [hslashed] at h
            cases h
        | false =>
            rw [hslashed] at h
            cases h
            exact ⟨place, fileAt_eq_some_iff.mpr ⟨p, dir, hp, hdir, hplace, hslashed⟩, hentry⟩
  · rintro ⟨place, hplace, hentry⟩
    obtain ⟨p, dir, hp, hdir, hstep, hslashed⟩ := fileAt_eq_some_iff.mp hplace
    rw [find, hp, ok_bind, hdir, ok_bind, hstep, ok_bind, hentry, hslashed]
    rfl

theorem fetch_eq_ok_iff {path : String} : d.fetch path = .ok content ↔
    ∃ place, d.fileAt path = some place ∧ d.entry place = .file content := by
  rw [← find_eq_file_iff, fetch]
  cases d.find path with
  | error fault => simp
  | ok e => cases e <;> simp

/-- Where a file may be written, the path leads, and it leads there still when the
file has been written. -/
theorem fileAt_of_target {path : String} (h : d.target path = .ok place) (content : Bytes) :
    d.fileAt path = some place ∧ (d.put place content).fileAt path = some place ∧
      d.entry place ≠ .directory := by
  obtain ⟨p, dir, hp, hdir, hslashed, hplace, hentry⟩ := target_eq_ok h
  exact ⟨fileAt_eq_some_iff.mpr ⟨p, dir, hp, hdir, hplace, hslashed⟩,
    fileAt_eq_some_iff.mpr ⟨p, dir, hp, parent_put hdir, hplace, hslashed⟩, hentry⟩

theorem write_run (d : Disk) (path text : String) :
    (system.write path text).run d =
      match d.store path (Bytes.ofString text) with
      | .ok after => (.ok (), after)
      | .error e => (.error e, d) := rfl

/-- A disk is a file system as it should be. -/
theorem system_lawful : system.Lawful view where
  read_keeps _ _ := rfl
  read_finds _ _ _ := fetch_eq_ok_iff
  refusal_keeps := by
    intro path text d e after hwrite
    rw [write_run] at hwrite
    cases hstore : d.store path (Bytes.ofString text) with
    | ok stored =>
        rw [hstore] at hwrite
        cases hwrite
    | error e' =>
        rw [hstore] at hwrite
        cases hwrite
        rfl
  write_replaces := by
    intro path text d after hwrite
    rw [write_run] at hwrite
    unfold store at hwrite
    cases htarget : d.target path with
    | error fault =>
        rw [htarget] at hwrite
        cases hwrite
    | ok place =>
        rw [htarget] at hwrite
        cases hwrite
        obtain ⟨hbefore, hafter, hentry⟩ := fileAt_of_target htarget (Bytes.ofString text)
        exact ⟨place, hbefore, hafter, entry_put_self hentry, fun other => entry_put_of_ne⟩

end Disk

end ThreeAddress
