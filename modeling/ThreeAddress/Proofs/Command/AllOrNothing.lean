import Mathlib.Data.List.Basic
import ThreeAddress.Command.Run
import ThreeAddress.Proofs.Files.Laws
import ThreeAddress.Proofs.Format.Adding

/-!
# All or nothing

A command that works on several files takes them one after the other and hands one
text on from each to the next. What it makes of each file alone is compared here with
what it does with all of them: if each file alone gives a text, it puts out these
texts in order (`Joins`), and if one does not, the first that does not decides
(`FailsFirst`). Files are read only, until all texts are there; so a failure leaves
the file system as it was, and an output file that is also an input is replaced after
it was read.
-/

namespace ThreeAddress.Command

/-! ## One file after the other -/

section Joining

variable {ε σ α β : Type} {alone : String → Except ε String} {path : String} {paths : List String}

theorem run_bind_of_run {x : StateM σ α} {next : α → StateM σ β} {st st' : σ} {a : α}
    (h : x.run st = (a, st')) : (x >>= next).run st = (next a).run st' := by
  rw [StateT.run_bind, h]
  rfl

/-- Every path gives a text alone, and the output is these texts in order. -/
def Joins (alone : String → Except ε String) (paths : List String) (output : String) : Prop :=
  ∃ texts, paths.map alone = texts.map .ok ∧ output = String.join texts

/-- The first path that gives no text alone is `path`, and it gives the error. -/
def FailsFirst (alone : String → Except ε String) (paths : List String) (path : String)
    (e : ε) : Prop :=
  ∃ before after, paths = before ++ path :: after ∧
    (∀ earlier ∈ before, ∃ text, alone earlier = .ok text) ∧ alone path = .error e

theorem joins_nil : Joins alone [] "" := ⟨[], rfl, rfl⟩

theorem Joins.cons {text output : String} (hpath : alone path = .ok text)
    (h : Joins alone paths output) : Joins alone (path :: paths) (text ++ output) := by
  obtain ⟨texts, hpaths, rfl⟩ := h
  refine ⟨text :: texts, ?_, String.join_cons.symm⟩
  rw [List.map_cons, List.map_cons, hpath, hpaths]

theorem Joins.unique {output output' : String} (h : Joins alone paths output)
    (h' : Joins alone paths output') : output = output' := by
  obtain ⟨texts, htexts, rfl⟩ := h
  obtain ⟨texts', htexts', rfl⟩ := h'
  rw [(List.map_inj_right fun _ _ => Except.ok.inj).mp (htexts.symm.trans htexts')]

theorem Joins.exists_text {output : String} (h : Joins alone paths output) (hmem : path ∈ paths) :
    ∃ text, alone path = .ok text := by
  obtain ⟨texts, htexts, -⟩ := h
  have hpath : alone path ∈ texts.map .ok := htexts ▸ List.mem_map_of_mem hmem
  obtain ⟨text, -, htext⟩ := List.mem_map.mp hpath
  exact ⟨text, htext.symm⟩

theorem failsFirst_head {e : ε} (hpath : alone path = .error e) :
    FailsFirst alone (path :: paths) path e :=
  ⟨[], paths, rfl, by simp, hpath⟩

theorem FailsFirst.cons {text : String} {later : String} {e : ε} (hpath : alone path = .ok text)
    (h : FailsFirst alone paths later e) : FailsFirst alone (path :: paths) later e := by
  obtain ⟨before, after, rfl, hbefore, hlater⟩ := h
  refine ⟨path :: before, after, rfl, ?_, hlater⟩
  intro earlier hmem
  rcases List.mem_cons.mp hmem with rfl | hmem
  · exact ⟨text, hpath⟩
  · exact hbefore earlier hmem

theorem FailsFirst.of_cons {later : String} {e : ε} (h : FailsFirst alone (path :: paths) later e) :
    later = path ∧ alone path = .error e ∨
      ∃ text, alone path = .ok text ∧ FailsFirst alone paths later e := by
  obtain ⟨before, after, hpaths, hbefore, hlater⟩ := h
  cases before with
  | nil =>
      cases hpaths
      exact .inl ⟨rfl, hlater⟩
  | cons earlier before =>
      cases hpaths
      obtain ⟨text, htext⟩ := hbefore path List.mem_cons_self
      exact .inr ⟨text, htext, before, after, rfl,
        fun x hx => hbefore x (List.mem_cons_of_mem _ hx), hlater⟩

theorem FailsFirst.not_joins {e : ε} {output : String} (h : FailsFirst alone paths path e) :
    ¬ Joins alone paths output := by
  intro hjoins
  obtain ⟨before, after, rfl, -, hpath⟩ := h
  have hmem : path ∈ before ++ path :: after := by simp
  obtain ⟨text, htext⟩ := hjoins.exists_text hmem
  cases hpath.symm.trans htext

/-- Work that adds to a text what each path gives alone, and leaves the state as it is,
adds all of it in order or stops at the first path that gives nothing. -/
theorem workThrough_cases {work : String → String → StateM σ (Except Failure String)}
    {wrap : String → ε → Failure} {st : σ}
    (h : ∀ path text, (work path text).run st =
      (((alone path).map (text ++ ·)).mapError (wrap path), st))
    (paths : List String) (text : String) :
    (∃ output, Joins alone paths output ∧
      (workThrough work paths text).run st = (.ok (text ++ output), st)) ∨
      ∃ path e, FailsFirst alone paths path e ∧
        (workThrough work paths text).run st = (.error (wrap path e), st) := by
  induction paths generalizing text with
  | nil =>
      refine .inl ⟨"", joins_nil, ?_⟩
      rw [String.append_empty]
      rfl
  | cons path paths ih =>
      cases hpath : alone path with
      | error e =>
          refine .inr ⟨path, e, failsFirst_head hpath, ?_⟩
          rw [workThrough, run_bind_of_run (h path text), hpath]
          rfl
      | ok added =>
          have hstep : (workThrough work (path :: paths) text).run st =
              (workThrough work paths (text ++ added)).run st := by
            rw [workThrough, run_bind_of_run (h path text), hpath]
            rfl
          rcases ih (text ++ added) with ⟨output, hjoins, hrest⟩ | ⟨later, e, hfails, hrest⟩
          · refine .inl ⟨added ++ output, hjoins.cons hpath, ?_⟩
            rw [hstep, hrest, String.append_assoc]
          · exact .inr ⟨later, e, hfails.cons hpath, hstep.trans hrest⟩

end Joining

/-! ## What is made of one file -/

/-- The printed code of a file that is read as `fetch` says. -/
def compiled (fetch : String → Except FileError Bytes) (o : CompileOptions) (path : String) :
    Except CompileError String := do
  let text ← (fetch path).mapError .read
  compileText o path text

/-- The canonical text of a file that is read as `fetch` says. -/
def formatted (fetch : String → Except FileError Bytes) (path : String) :
    Except Failure String := do
  let text ← (fetch path).mapError (.read path)
  let p ← (parse (tokenize text)).mapError (.parse path)
  (p.formatOnto "").mapError (.format path)

section Lawful

variable {σ ι : Type} {files : Files (StateM σ)} {view : FileView σ ι}

theorem compileFile_run (laws : files.Lawful view) (st : σ) (o : CompileOptions) (path : String) :
    (compileFile files o path).run st = (compiled (files.fetch st) o path, st) := by
  rw [compileFile, run_bind_of_run (laws.read_keeps path st), compiled]
  cases files.fetch st path with
  | error e => rfl
  | ok text => rfl

theorem compileOnto_run (laws : files.Lawful view) (st : σ) (o : CompileOptions)
    (path text : String) :
    (compileOnto files o path text).run st =
      (((compiled (files.fetch st) o path).map (text ++ ·)).mapError (.compile path), st) := by
  rw [compileOnto, run_bind_of_run (compileFile_run laws st o path)]
  cases compiled (files.fetch st) o path with
  | error e => rfl
  | ok listing => rfl

/-- A program is added to the text at hand as it is printed alone. -/
theorem formatFile_run (laws : files.Lawful view) (st : σ) (path text : String) :
    (formatFile files path text).run st = ((formatted (files.fetch st) path).map (text ++ ·), st) := by
  rw [formatFile, run_bind_of_run (laws.read_keeps path st), formatted]
  cases files.fetch st path with
  | error e => rfl
  | ok source =>
      rw [mapError_ok, ok_bind]
      dsimp only
      cases parse (tokenize source) with
      | error e => rfl
      | ok p =>
          rw [mapError_ok, ok_bind]
          show ((p.formatOnto text).mapError _, st) = _
          rw [p.formatOnto_eq text]
          cases p.formatOnto "" with
          | error e => rfl
          | ok added => rfl

/-! ## What is made of all of them -/

/-- What becomes of compiling files in a state of a file system, and of the state. -/
inductive CompileOutcome (files : Files (StateM σ)) (view : FileView σ ι) (st : σ) (s : Settings)
    (paths : List String) : Outcome → σ → Prop
  | printed {listing : String} : Joins (compiled (files.fetch st) s.compileOptions) paths listing →
      s.output = "-" ∨ s.output = "" → CompileOutcome files view st s paths { stdout := listing } st
  | written {listing : String} {after : σ} :
      Joins (compiled (files.fetch st) s.compileOptions) paths listing →
      s.output ≠ "-" → s.output ≠ "" →
      files.Replaces view st s.output (Bytes.ofString listing) after →
      CompileOutcome files view st s paths {} after
  /-- The listing is there, and the file system does not take it. -/
  | refused {listing : String} {e : FileError} :
      Joins (compiled (files.fetch st) s.compileOptions) paths listing →
      s.output ≠ "-" → s.output ≠ "" →
      (files.write s.output listing).run st = (.error e, st) →
      CompileOutcome files view st s paths { failure := some (.write e) } st
  | failed {path : String} {e : CompileError} :
      FailsFirst (compiled (files.fetch st) s.compileOptions) paths path e →
      CompileOutcome files view st s paths { failure := some (.compile path e) } st

/-- What becomes of printing the canonical texts of files. -/
inductive FormatOutcome (files : Files (StateM σ)) (st : σ) (paths : List String) : Outcome → Prop
  | printed {text : String} : Joins (formatted (files.fetch st)) paths text →
      FormatOutcome files st paths { stdout := text }
  | failed {path : String} {e : Failure} : FailsFirst (formatted (files.fetch st)) paths path e →
      FormatOutcome files st paths { failure := some e }

theorem compileFiles_outcome (laws : files.Lawful view) (st : σ) (s : Settings)
    (paths : List String) :
    ∃ outcome after, (compileFiles files s paths).run st = (outcome, after) ∧
      CompileOutcome files view st s paths outcome after := by
  rcases workThrough_cases (compileOnto_run laws st s.compileOptions) paths "" with
    ⟨listing, hjoins, hrun⟩ | ⟨path, e, hfails, hrun⟩
  · rw [String.empty_append] at hrun
    by_cases hstdout : s.toStdout = true
    · refine ⟨_, st, ?_, .printed hjoins (by simpa [Settings.toStdout] using hstdout)⟩
      rw [compileFiles, run_bind_of_run hrun]
      dsimp only
      rw [if_pos hstdout]
      rfl
    · obtain ⟨hdash, hempty⟩ : s.output ≠ "-" ∧ s.output ≠ "" := by
        simpa [Settings.toStdout] using hstdout
      cases hwrite : (files.write s.output listing).run st with
      | mk answer after =>
          cases answer with
          | ok =>
              refine ⟨_, after, ?_, .written hjoins hdash hempty (laws.replaces hwrite)⟩
              rw [compileFiles, run_bind_of_run hrun]
              dsimp only
              rw [if_neg hstdout, run_bind_of_run hwrite]
              rfl
          | error e =>
              obtain rfl := laws.refusal_keeps _ _ _ _ _ hwrite
              refine ⟨_, after, ?_, .refused hjoins hdash hempty hwrite⟩
              rw [compileFiles, run_bind_of_run hrun]
              dsimp only
              rw [if_neg hstdout, run_bind_of_run hwrite]
              rfl
  · refine ⟨_, st, ?_, .failed hfails⟩
    rw [compileFiles, run_bind_of_run hrun]
    rfl

theorem printPrograms_outcome (laws : files.Lawful view) (st : σ) (paths : List String) :
    ∃ outcome, (printPrograms files paths).run st = (outcome, st) ∧
      FormatOutcome files st paths outcome := by
  have hwork : ∀ path text, (formatFile files path text).run st =
      (((formatted (files.fetch st) path).map (text ++ ·)).mapError id, st) := by
    intro path text
    rw [formatFile_run laws]
    cases formatted (files.fetch st) path with
    | error e => rfl
    | ok added => rfl
  rcases workThrough_cases hwork paths "" with ⟨text, hjoins, hrun⟩ | ⟨path, e, hfails, hrun⟩
  · rw [String.empty_append] at hrun
    refine ⟨_, ?_, .printed hjoins⟩
    rw [printPrograms, run_bind_of_run hrun]
    rfl
  · refine ⟨_, ?_, .failed hfails⟩
    rw [printPrograms, run_bind_of_run hrun]
    rfl

/-- The report of an outcome, for a command called by a name. -/
def Outcome.report (o : Outcome) (alias? : Option String) : Report :=
  ⟨o.stdout, o.failure.map fun f => under alias? f.message⟩

theorem run_of_perform {st after : σ} {args paths : List String} {alias? : Option String}
    {verb : Verb} {s : Settings} {outcome : Outcome}
    (hargs : readArgs args = .ok ⟨alias?, .run verb s paths⟩)
    (h : (perform files verb s paths).run st = (outcome, after)) :
    (run files args).run st = (outcome.report alias?, after) := by
  rw [run, hargs]
  exact run_bind_of_run h

/-- In every state of every file system that keeps the laws of reading and writing,
compiling files and printing their canonical texts is all or nothing. A listing
appears, on standard output or as the whole content of the output file, only if every
file was read and compiled, and it is what the files give alone, in order. Otherwise
nothing is printed, the state is as it was, and the error is that of the first file to
fail, under `compile` and its path. -/
theorem commands_are_all_or_nothing (laws : files.Lawful view) (st : σ) (s : Settings)
    (paths : List String) :
    (∃ outcome after, CompileOutcome files view st s paths outcome after ∧
      (compileFiles files s paths).run st = (outcome, after) ∧
      ∀ args alias?, readArgs args = .ok ⟨alias?, .run .compile s paths⟩ →
        (run files args).run st = (outcome.report alias?, after)) ∧
    (∃ outcome, FormatOutcome files st paths outcome ∧
      (printPrograms files paths).run st = (outcome, st) ∧
      ∀ args alias?, readArgs args = .ok ⟨alias?, .run .format s paths⟩ →
        (run files args).run st = (outcome.report alias?, st)) ∧
    ∀ path e, (Failure.compile path e).message = "compile " ++ path ++ ": " ++ e.message := by
  refine ⟨?compile, ?format, fun path e => rfl⟩
  case compile =>
    obtain ⟨outcome, after, hrun, houtcome⟩ := compileFiles_outcome laws st s paths
    exact ⟨outcome, after, houtcome, hrun, fun args alias? hargs => run_of_perform hargs hrun⟩
  case format =>
    obtain ⟨outcome, hrun, houtcome⟩ := printPrograms_outcome laws st paths
    exact ⟨outcome, houtcome, hrun, fun args alias? hargs => run_of_perform hargs hrun⟩

end Lawful

/-- A directory with a file in it, in the working directory. -/
def nested : Disk where
  working := ["work"]
  files := [(["work", "sub", "a"], Bytes.ofString "x = 1;")]
  directories := [["work", "sub"]]

/-- A file of a directory below the working one is compiled twice over into its own
place; named behind a file that is missing, it stays as it is. -/
theorem nested_commands_are_all_or_nothing :
    (compileFiles Disk.system { output := "sub/a" } ["b", "sub/a"]).run nested =
      ({ failure := some (.compile "b" (.read ⟨.opening, "b", .absent⟩)) }, nested) ∧
    ∃ after, (compileFiles Disk.system { output := "sub/a" } ["sub/a", "sub/a"]).run nested =
      ({}, after) ∧ Disk.system.fetch after "sub/a" = .ok (Bytes.ofString "x = 1;\nx = 1;\n") := by
  have hmissing : compiled (Disk.system.fetch nested)
      ({ output := "sub/a" } : Settings).compileOptions "b" =
      .error (.read ⟨.opening, "b", .absent⟩) := by decide +kernel
  have hfound : compiled (Disk.system.fetch nested)
      ({ output := "sub/a" } : Settings).compileOptions "sub/a" = .ok "x = 1;\n" := by decide +kernel
  constructor
  · obtain ⟨⟨outcome, after, houtcome, hrun, -⟩, -⟩ :=
      commands_are_all_or_nothing Disk.system_lawful nested { output := "sub/a" } ["b", "sub/a"]
    have hfails : FailsFirst _ ["b", "sub/a"] "b" _ := failsFirst_head hmissing
    rw [hrun]
    cases houtcome with
    | printed hjoins | written hjoins | refused hjoins => exact absurd hjoins hfails.not_joins
    | failed hfailed =>
        rcases hfailed.of_cons with ⟨rfl, he⟩ | ⟨text, htext, -⟩
        · cases hmissing.symm.trans he
          rfl
        · cases hmissing.symm.trans htext
  · obtain ⟨⟨outcome, after, houtcome, hrun, -⟩, -⟩ :=
      commands_are_all_or_nothing Disk.system_lawful nested { output := "sub/a" }
        ["sub/a", "sub/a"]
    have hjoined := (joins_nil.cons hfound).cons hfound
    cases houtcome with
    | printed _ hstdout => simp at hstdout
    | written hjoins _ _ hreplaces =>
        obtain rfl := hjoins.unique hjoined
        exact ⟨after, hrun, hreplaces.read⟩
    | refused _ _ _ hrefused =>
        have htarget : nested.target "sub/a" = .ok ["work", "sub", "a"] := by decide +kernel
        rw [Disk.write_run, Disk.store, htarget] at hrefused
        cases hrefused
    | failed hfailed => exact absurd hjoined hfailed.not_joins

end ThreeAddress.Command
