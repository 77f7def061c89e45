import ThreeAddress.Proofs.Compile.Outcome
import ThreeAddress.Proofs.Lowering.Raising

/-!
# Recovering a program from its listing

The texts in lowered code are words, numerals and symbols, so a listing can be
read back line by line; the code read off it declares what the program
declares, and raising it gives the statements of the program. Hence programs
with the same listing are the same, up to the places of their nodes.

The stem has to be a word here. With a stem such as `1` a temporary could have
the name of a literal.
-/

namespace ThreeAddress

/-! ## Lowered code can be read -/

theorem IsWord.unbroken {s : String} (h : IsWord s) : Unbroken s :=
  ⟨fun hmem => absurd (h.isNameChar _ hmem) (by decide),
    fun hmem => absurd (h.isNameChar _ hmem) (by decide)⟩

theorem IsNumeral.unbroken {s : String} (h : IsNumeral s) : Unbroken s :=
  ⟨fun hmem => absurd (h.isDigit_or_eq _ hmem) (by decide),
    fun hmem => absurd (h.isDigit_or_eq _ hmem) (by decide)⟩

namespace Lowering

variable {s : Scope} {c c' : Counters} {code : Code}

theorem Scope.MakesLabel.isWord {l : Label} (h : s.MakesLabel c c' l) : IsWord l.name := by
  cases hs : s.namedLabels with
  | false =>
      obtain ⟨k, -, -, hname⟩ := h.plain hs
      rw [hname]
      exact IsWord.append_number (by decide) k
  | true =>
      obtain ⟨purpose, k, -, -, hname⟩ := h.named hs
      have hword : IsWord purpose.word := by cases purpose <;> decide
      rw [hname]
      exact hword.append_number k

theorem unbroken_opening (purpose : Purpose) (c : Counters) :
    Unbroken (s.opening purpose c).name :=
  (s.makesLabel_label purpose c).isWord.unbroken

theorem unbroken_closing (purpose : Purpose) (c : Counters) :
    Unbroken (s.closing purpose c).name :=
  (s.makesLabel_label .finish _).isWord.unbroken

theorem EmitsExpr.legible {e : Expr} {x : Operand} (h : EmitsExpr s e c code x c')
    (hstem : IsWord s.stem) (he : s.Spells e) :
    (∀ y ∈ code, y.Legible) ∧ Unbroken x.text := by
  induction h with
  | lit => exact ⟨by simp, IsNumeral.unbroken he⟩
  | var => exact ⟨by simp, he.1.unbroken⟩
  | @bin pos op l r c c₁ c₂ codeL codeR x y hop _ _ ihL ihR =>
      obtain ⟨hL, hx⟩ := ihL he.1
      obtain ⟨hR, hy⟩ := ihR he.2
      have htemp : Unbroken (s.temp c₂).1.name := ((s.makesTemp_temp c₂).isWord hstem).unbroken
      simp only [List.forall_mem_append, List.forall_mem_singleton]
      exact ⟨⟨⟨hL, hR⟩, .binop hop htemp hx hy⟩, htemp⟩

theorem Emits.legible {ss : List Stmt} (h : Emits s ss c code c') (hstem : IsWord s.stem)
    (hss : s.SpellsAll ss) : ∀ y ∈ code, y.Legible := by
  induction h with
  | nil => simp
  | assign pos name he _ ih =>
      cases hss with
      | assign hname hexpr hrest =>
      obtain ⟨hcode, hx⟩ := he.legible hstem hexpr
      simp only [List.forall_mem_append, List.forall_mem_cons]
      exact ⟨hcode, .copy hname.unbroken hx, ih hrest⟩
  | loop pos he _ _ ihB ih =>
      cases hss with
      | loop hcond hbody hrest =>
      obtain ⟨htest, hx⟩ := he.legible hstem hcond
      have hstart := unbroken_opening (s := s) .loop
      have hfinish := unbroken_closing (s := s) .loop
      simp only [List.forall_mem_append, List.forall_mem_cons]
      exact ⟨.mark (hstart _), htest, .ifFalse hx (hfinish _), ihB hbody, .goto (hstart _),
        .mark (hfinish _), ih hrest⟩
  | branch pos he _ _ _ ihT ihF ih =>
      cases hss with
      | branch hcond hyes hno hrest =>
      obtain ⟨htest, hx⟩ := he.legible hstem hcond
      have hother := unbroken_opening (s := s) .otherwise
      have hfinish := unbroken_closing (s := s) .otherwise
      simp only [List.forall_mem_append, List.forall_mem_cons]
      exact ⟨htest, .ifFalse hx (hother _), ihT hyes, .goto (hfinish _), .mark (hother _),
        ihF hno, .mark (hfinish _), ih hrest⟩

theorem legible_decls {ds : List Decl} (h : ∀ d ∈ ds, d.WellFormed) :
    ∀ y ∈ decls ds, y.Legible := by
  intro y hy
  obtain ⟨d, hd, hy⟩ := List.mem_flatMap.mp hy
  obtain ⟨name, hname, rfl⟩ := List.mem_map.mp hy
  exact .decl (h d hd).ty ((h d hd).names name hname).1.unbroken

theorem legible_of_lower {o : LowerOptions} {p : Program} {lowered : Lowered}
    (hstem : IsWord o.tempStem) (hp : p.WellFormed) (h : p.lower o = .ok lowered) :
    ∀ y ∈ lowered.code, y.Legible := by
  obtain ⟨-, body, c, hemits, rfl⟩ := lower_eq_ok_iff.mp h
  have hbody := hemits.legible hstem (spellsAll_scope hp o)
  cases o.noDecls with
  | true => exact hbody
  | false => exact List.forall_mem_append.mpr ⟨legible_decls hp.decls, hbody⟩

end Lowering

/-! ## Declarations -/

/-- The names a program declares, each with its type, in their order. -/
def Program.declared (p : Program) : List (Ty × String) :=
  p.decls.flatMap fun d => d.names.map fun name => (d.ty, name)

theorem Code.declared_face (code : Code) : declared (code.map Instr.face) = code.declared := by
  have hface : ∀ x : Instr, x.face.declared? = x.declared? := by
    intro x
    cases x <;> rfl
  simp only [declared, List.filterMap_map, Function.comp_def, hface]

namespace Lowering

theorem declared_of_lower {o : LowerOptions} {p : Program} {lowered : Lowered}
    (hdecls : o.noDecls = false) (h : p.lower o = .ok lowered) :
    lowered.code.declared = p.declared := by
  obtain ⟨-, body, c, hemits, rfl⟩ := lower_eq_ok_iff.mp h
  have hhead : Code.declared (decls p.decls) = p.declared := by
    simp [Code.declared, decls, Program.declared, List.filterMap_flatMap, List.filterMap_map,
      Function.comp_def, Instr.declared?]
  simp [hdecls, hhead, hemits.declared_eq_nil]

end Lowering

/-! ## Listings -/

/-- What can be read off the listing of a text. -/
theorem recovered_of_compileText {o : CompileOptions} {source listing : String} {text : Bytes}
    {p : Program} (hstem : IsWord o.lowering.tempStem) (hp : parse (tokenize text) = .ok p)
    (h : compileText o source text = .ok listing) :
    (Code.ofListing listing).raise = Stmt.eraseAll p.stmts ∧
      (o.noDecls = false → (Code.ofListing listing).declared = p.declared) := by
  obtain ⟨lowered, hlower, rfl⟩ := (compileText_eq_ok_iff o source hp).mp h
  have hwf := wellFormed_of_parse hp
  have hread := Code.ofListing_listing (Lowering.legible_of_lower hstem hwf hlower)
  rw [hread]
  refine ⟨?_, fun hdecls => ?_⟩
  · rw [Code.raise, Raising.State.run_face]
    exact Lowering.raise_of_lower hstem hwf hlower
  · rw [Code.declared_face]
    exact Lowering.declared_of_lower hdecls hlower

/-- A listing determines the program. Whatever the options, as long as the stem
in use is a word: texts with the same listing read as the same statements, up
to places, and as declaring the same names with the same types in the same
order, unless declarations are left out. -/
theorem listing_determines_program {o : CompileOptions}
    (hstem : IsWord (if o.tempStem = "" then "t" else o.tempStem)) {text text' : Bytes}
    {p q : Program} (hp : parse (tokenize text) = .ok p) (hq : parse (tokenize text') = .ok q)
    {source source' listing : String} (h : compileText o source text = .ok listing)
    (h' : compileText o source' text' = .ok listing) :
    Stmt.eraseAll p.stmts = Stmt.eraseAll q.stmts ∧
      (o.noDecls = false → p.declared = q.declared) := by
  obtain ⟨hstmts, hdecls⟩ := recovered_of_compileText hstem hp h
  obtain ⟨hstmts', hdecls'⟩ := recovered_of_compileText hstem hq h'
  refine ⟨?_, fun hkept => ?_⟩
  · rw [← hstmts, hstmts']
  · rw [← hdecls hkept, hdecls' hkept]

/-- A loop over two names, one of which a temporary would have. -/
def shortLoop : Bytes := Bytes.ofString "var int t0,a;while(t0<a)\x7bt0=a+1;\x7d"

/-- The same loop, the names declared one by one, with parentheses nobody needs. -/
def wordyLoop : Bytes := Bytes.ofString "var int t0;int a;while(t0<(a))\x7bt0=(a+1);\x7d"

def shortTree : Program :=
  ⟨0, [⟨4, .int, ["t0", "a"]⟩],
    [.loop 13 (.bin 19 .lt (.var 19 "t0") (.var 22 "a"))
      [.assign 25 "t0" (.bin 28 .add (.var 28 "a") (.lit 30 "1"))]]⟩

def wordyTree : Program :=
  ⟨0, [⟨4, .int, ["t0"]⟩, ⟨11, .int, ["a"]⟩],
    [.loop 17 (.bin 23 .lt (.var 23 "t0") (.var 27 "a"))
      [.assign 31 "t0" (.bin 35 .add (.var 35 "a") (.lit 37 "1"))]]⟩

theorem loops_share_listing :
    parse (tokenize shortLoop) = .ok shortTree ∧ parse (tokenize wordyLoop) = .ok wordyTree ∧
      (∃ listing, compileText {} "short" shortLoop = .ok listing ∧
        compileText {} "wordy" wordyLoop = .ok listing) ∧
      Stmt.eraseAll shortTree.stmts = Stmt.eraseAll wordyTree.stmts ∧
      shortTree.declared = wordyTree.declared := by
  have hshort : parse (tokenize shortLoop) = .ok shortTree := by decide +kernel
  have hwordy : parse (tokenize wordyLoop) = .ok wordyTree := by decide +kernel
  have hlower : shortTree.lower {} = wordyTree.lower {} := rfl
  obtain ⟨lowered, hlowered⟩ := Lowering.exists_lower (p := wordyTree) (o := {}) rfl rfl
  have hlisting : compileText {} "short" shortLoop = .ok lowered.code.listing :=
    (compileText_eq_ok_iff _ _ hshort).mpr ⟨lowered, hlower.trans hlowered, rfl⟩
  have hlisting' : compileText {} "wordy" wordyLoop = .ok lowered.code.listing :=
    (compileText_eq_ok_iff _ _ hwordy).mpr ⟨lowered, hlowered, rfl⟩
  obtain ⟨hstmts, hdecls⟩ :=
    listing_determines_program (by decide) hshort hwordy hlisting hlisting'
  exact ⟨hshort, hwordy, ⟨_, hlisting, hlisting'⟩, hstmts, hdecls rfl⟩

end ThreeAddress
