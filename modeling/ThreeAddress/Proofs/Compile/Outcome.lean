import ThreeAddress.Compile.Basic
import ThreeAddress.Proofs.Format.RoundTrip
import ThreeAddress.Proofs.Grammar.Blame
import ThreeAddress.Proofs.Grammar.Safety
import ThreeAddress.Proofs.Lowering.Verified

/-!
# How a compilation ends

Each stage hands the next one what it needs: what was parsed has no holes and
only operators of the language, so nothing but the options keeps it from being
lowered, and lowered code passes the check. So a compilation ends in one of
three ways, and which one is decided by the tokens and the stem alone.
-/

namespace ThreeAddress

/-! ## Stages -/

theorem isSupported_of_parse {text : Bytes} {p : Program} (h : parse (tokenize text) = .ok p) :
    p.isSupported = true :=
  (wellFormed_of_parse h).stmts.areSupported

theorem stem_ne_empty (o : CompileOptions) : o.lowering.tempStem ≠ "" := by
  show (if o.tempStem = "" then "t" else o.tempStem) ≠ ""
  split
  · decide
  · assumption

/-- The check of the code lets everything through, so it may as well be left out. -/
theorem compile_unchecked (o : CompileOptions) (source : String) (text : Bytes) :
    compile o source text =
      (parse (tokenize text)).mapError (.parse source) >>= fun p =>
      (p.lower o.lowering).mapError .lower >>= fun lowered => .ok lowered.code := by
  rw [compile]
  cases parse (tokenize text) with
  | error e => rfl
  | ok p =>
      cases hlower : p.lower o.lowering with
      | error e =>
          simp only [mapError_ok, ok_bind, hlower]
          rfl
      | ok lowered =>
          have hverify := (Lowering.wellFormed_of_lower hlower).verify
          cases hcheck : o.verify with
          | false =>
              simp only [mapError_ok, ok_bind, hlower]
              rfl
          | true =>
              simp only [mapError_ok, ok_bind, hlower, hverify]
              rfl

/-! ## The three ways to end -/

/-- The stem in use is a word that labels start with, maybe with digits after it. -/
def CompileOptions.Collides (o : CompileOptions) : Prop :=
  ∃ word ∈ (if o.namedLabels then ["WHILE", "ELSE", "END"] else ["L"]), ∃ digits : List Char,
    (∀ ch ∈ digits, ch.isDigit = true) ∧
      (if o.tempStem = "" then "t" else o.tempStem).toList = word.toList ++ digits

theorem collides_iff (o : CompileOptions) : o.Collides ↔ o.lowering.Collides := Iff.rfl

variable (o : CompileOptions) (source : String) {text : Bytes}

theorem compileText_of_parse_error {e : SyntaxError} (h : parse (tokenize text) = .error e) :
    compileText o source text = .error (.parse source e) := by
  rw [compileText, compile_unchecked, h]
  rfl

theorem compileText_eq_ok_iff {p : Program} (hp : parse (tokenize text) = .ok p)
    {listing : String} : compileText o source text = .ok listing ↔
      ∃ lowered, p.lower o.lowering = .ok lowered ∧ lowered.code.listing = listing := by
  rw [compileText, compile_unchecked, hp, mapError_ok, ok_bind]
  cases p.lower o.lowering with
  | error e => simp [Except.map]
  | ok lowered => simp [Except.map]

theorem compileText_of_collides {p : Program} (hp : parse (tokenize text) = .ok p)
    (h : o.Collides) :
    ∃ word, compileText o source text =
      .error (.lower (.tempStemCollides o.lowering.tempStem word)) := by
  obtain ⟨word, hcheck⟩ :=
    LowerOptions.check_of_collides (stem_ne_empty o) ((collides_iff o).mp h)
  have hlower : p.lower o.lowering =
      .error (.tempStemCollides o.lowering.tempStem word) := by
    rw [Program.lower, hcheck]
    rfl
  refine ⟨word, ?_⟩
  rw [compileText, compile_unchecked, hp, mapError_ok, ok_bind, hlower]
  rfl

theorem compileText_of_not_collides {p : Program} (hp : parse (tokenize text) = .ok p)
    (h : ¬ o.Collides) :
    ∃ lowered, p.lower o.lowering = .ok lowered ∧
      compileText o source text = .ok lowered.code.listing := by
  have hcheck : o.lowering.check = .ok () :=
    LowerOptions.check_eq_ok_iff.mpr ⟨stem_ne_empty o, fun hc => h ((collides_iff o).mpr hc)⟩
  obtain ⟨lowered, hlower⟩ := Lowering.exists_lower (isSupported_of_parse hp) hcheck
  exact ⟨lowered, hlower, (compileText_eq_ok_iff o source hp).mpr ⟨lowered, hlower, rfl⟩⟩

theorem compileText_error_parse_iff (e : SyntaxError) :
    compileText o source text = .error (.parse source e) ↔ parse (tokenize text) = .error e := by
  refine ⟨fun h => ?_, compileText_of_parse_error o source⟩
  cases hparse : parse (tokenize text) with
  | error e' =>
      rw [compileText_of_parse_error o source hparse] at h
      cases h
      rfl
  | ok p =>
      by_cases hc : o.Collides
      · obtain ⟨word, hword⟩ := compileText_of_collides o source hparse hc
        rw [hword] at h
        cases h
      · obtain ⟨lowered, -, hok⟩ := compileText_of_not_collides o source hparse hc
        rw [hok] at h
        cases h

/-- The two ways to fail. -/
theorem compileText_failure {e : CompileError} (h : compileText o source text = .error e) :
    (∃ se, parse (tokenize text) = .error se ∧ e = .parse source se) ∨
      ∃ p word, parse (tokenize text) = .ok p ∧ o.Collides ∧
        e = .lower (.tempStemCollides o.lowering.tempStem word) := by
  cases hparse : parse (tokenize text) with
  | error se =>
      rw [compileText_of_parse_error o source hparse] at h
      cases h
      exact .inl ⟨se, rfl, rfl⟩
  | ok p =>
      by_cases hc : o.Collides
      · obtain ⟨word, hword⟩ := compileText_of_collides o source hparse hc
        rw [hword] at h
        cases h
        exact .inr ⟨p, word, rfl, hc, rfl⟩
      · obtain ⟨lowered, -, hok⟩ := compileText_of_not_collides o source hparse hc
        rw [hok] at h
        cases h

/-- Only the stage that lowers opens its messages with this word. -/
theorem compileText_generate_iff :
    (∃ e, compileText o source text = .error e ∧ "generate: ".toList <+: e.message.toList) ↔
      (∃ p, parse (tokenize text) = .ok p) ∧ o.Collides := by
  constructor
  · rintro ⟨e, herror, hopening⟩
    rcases compileText_failure o source herror with ⟨se, -, rfl⟩ | ⟨p, word, hp, hc, -⟩
    · simp [CompileError.message] at hopening
    · exact ⟨⟨p, hp⟩, hc⟩
  · rintro ⟨⟨p, hp⟩, hc⟩
    obtain ⟨word, hword⟩ := compileText_of_collides o source hp hc
    refine ⟨_, hword, ?_⟩
    rw [CompileError.message, String.toList_append]
    exact List.prefix_append _ _

/-! ## Writing into a buffer -/

/-- A writer that never fails: what is written goes to the end of the buffer. -/
def appendTo (listing : String) : StateM String (Except String Unit) := do
  modify (· ++ listing)
  return .ok ()

theorem compileTo_appendTo (buffer : String) : (compileTo appendTo o source text).run buffer =
    match compileText o source text with
    | .ok listing => (.ok (), buffer ++ listing)
    | .error e => (.error e, buffer) := by
  rw [compileTo]
  cases compileText o source text <;> rfl

/-- The outcome of a compilation depends on nothing but the tokens of the text
and the stem in use. Checking the code makes no difference. Tokens that cannot
be parsed give a syntax error, which blames one of them. Otherwise a stem that
could make the name of a label is refused; otherwise the listing is returned.
There are no other failures, so no stage is ever handed a tree or code with a
defect. What goes into a buffer is the whole listing, or nothing. The walk of the
parser over the tokens ends with its tree or its syntax error and for no other
reason. -/
theorem compile_outcome (text : Bytes) :
    (∀ check : Bool,
      compileText { o with verify := check } source text = compileText o source text) ∧
    (∀ e, compileText o source text = .error (.parse source e) ↔
      parse (tokenize text) = .error e) ∧
    ((∃ e, compileText o source text = .error e ∧ "generate: ".toList <+: e.message.toList) ↔
      (∃ p, parse (tokenize text) = .ok p) ∧ o.Collides) ∧
    (∀ p, parse (tokenize text) = .ok p → ¬ o.Collides →
      ∃ lowered, p.lower o.lowering = .ok lowered ∧
        compileText o source text = .ok lowered.code.listing) ∧
    (∀ e, compileText o source text = .error e →
      (∃ se, e = .parse source se ∧ se.token ∈ tokenize text ∧
        e.message = "parse " ++ source ++ ": " ++ se.message) ∨
      ∃ word, e = .lower (.tempStemCollides o.lowering.tempStem word)) ∧
    (∀ buffer : String, (compileTo appendTo o source text).run buffer =
      match compileText o source text with
      | .ok listing => (.ok (), buffer ++ listing)
      | .error e => (.error e, buffer)) ∧
    (∀ depth, 5 * (closed (tokenize text)).length ≤ depth → ∃ trace,
      Walk.parse depth (tokenize text) = ((parse (tokenize text)).mapError .syntaxError, trace)) := by
  refine ⟨fun check => ?_, compileText_error_parse_iff o source, compileText_generate_iff o source,
    fun p => compileText_of_not_collides o source, fun e herror => ?_, compileTo_appendTo o source,
    fun depth hdepth => ?_⟩
  · -- without the check of the code, nothing looks at whether one is asked for
    rw [compileText, compileText, compile_unchecked, compile_unchecked]
    rfl
  · rcases compileText_failure o source herror with ⟨se, hparse, rfl⟩ | ⟨p, word, -, -, rfl⟩
    · have hmem := token_mem_of_parse_error hparse (Cursor.exists_eof_mem_all _)
      exact .inl ⟨se, rfl, hmem, rfl⟩
    · exact .inr ⟨word, rfl⟩
  · obtain ⟨trace, hwalk, -⟩ := exists_trace hdepth
    exact ⟨trace, hwalk⟩

/-- A stem is refused only with the labels whose names it could make. -/
theorem stem_end_refused :
    (∃ e, compileText { tempStem := "END07", namedLabels := true } "a" (.ofString "x = 1;") =
      .error e ∧ "generate: ".toList <+: e.message.toList) ∧
    compileText { tempStem := "END07" } "a" (.ofString "x = 1;") = .ok "x = 1;\n" := by
  have hparse : parse (tokenize (.ofString "x = 1;")) =
      .ok ⟨0, [], [.assign 0 "x" (.lit 4 "1")]⟩ := by decide +kernel
  constructor
  · refine (compile_outcome _ "a" _).2.2.1.mpr ⟨⟨_, hparse⟩, ?_⟩
    exact ⟨"END", by simp, ['0', '7'], by simp, by simp⟩
  · have hfree : ¬ CompileOptions.Collides { tempStem := "END07" } := by
      rintro ⟨word, hword, digits, -, hstem⟩
      simp_all
    obtain ⟨lowered, hlower, hok⟩ := (compile_outcome _ "a" _).2.2.2.1 _ hparse hfree
    have hcode : Program.lower { tempStem := "END07" } ⟨0, [], [.assign 0 "x" (.lit 4 "1")]⟩ =
        .ok ⟨[.copy "x" (.lit "1")], 0, 0⟩ := rfl
    cases hcode.symm.trans hlower
    rw [hok]
    rfl

end ThreeAddress
