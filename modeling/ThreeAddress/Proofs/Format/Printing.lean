import ThreeAddress.Proofs.Format.Adding
import ThreeAddress.Proofs.Format.Spelling
import ThreeAddress.Proofs.Format.Writing

/-!
# What is printed

The text of a well-formed tree has tokens that are spelled like the tree, and
nothing else but blanks. So it spells a phrase of the grammar that derives the
tree.
-/

namespace ThreeAddress

/-! ## Pieces and their spellings -/

namespace Writing

variable {P Q : Bytes → Prop} {s t : String} {ss ss' : List Spelling} {w : List Token}

theorem spells_of_noToken (h : NoToken w) : Spells [] w := spells_nil_iff.mpr h

theorem spells_of_name (h : OfKindText .ident s w) : Spells [(.ident, s)] w := by
  obtain ⟨t, rfl, hkind, rfl⟩ := h
  exact spells_singleton_iff.mpr ⟨t, rfl, Token.spelling_of_ident hkind⟩

theorem spells_of_numeral (h : OfKindText .number s w) : Spells [(.number, s)] w := by
  obtain ⟨t, rfl, hkind, rfl⟩ := h
  exact spells_singleton_iff.mpr ⟨t, rfl, Token.spelling_of_number hkind⟩

theorem spells_of_ofKind {k : Kind} (hk : k ≠ .ident ∧ k ≠ .number) (h : OfKind k w) :
    Spells [k.spelling] w := by
  obtain ⟨t, rfl, hkind⟩ := h
  exact spells_singleton_iff.mpr ⟨t, rfl, Token.spelling_of_kind hkind hk⟩

theorem spells_of_then (h : Then (Spells ss) (Spells ss') w) : Spells (ss ++ ss') w :=
  spells_append_iff.mpr h

theorem ne_of_isKeyword {k : Kind} (hk : k.isKeyword = true) : k ≠ .ident ∧ k ≠ .number := by
  constructor <;> (rintro rfl; cases hk)

theorem ne_of_isSymbol {k : Kind} (hk : k.isSymbol = true) : k ≠ .ident ∧ k ≠ .number := by
  constructor <;> (rintro rfl; cases hk)

theorem Written.join (hs : Written P s (Spells ss)) (ht : Written Q t (Spells ss'))
    (hmeet : ∀ rest, Q rest → P (Bytes.ofString t ++ rest)) :
    Written Q (s ++ t) (Spells (ss ++ ss')) :=
  (hs.append ht hmeet).imp fun _ => spells_of_then

/-- What may come before anything is joined to the next piece. -/
theorem Written.joinAny (hs : Written Anything s (Spells ss)) (ht : Written Q t (Spells ss')) :
    Written Q (s ++ t) (Spells (ss ++ ss')) :=
  hs.join ht fun _ _ => trivial

theorem spelled_blanks (h : (Bytes.ofString s).all isBlank = true) :
    Written Anything s (Spells []) :=
  (written_blanks h).imp fun _ => spells_of_noToken

theorem spelled_name (h : IsName s) : Written Break s (Spells [(.ident, s)]) :=
  (written_name h).imp fun _ => spells_of_name

theorem spelled_keyword (k : Kind) (hk : k.isKeyword = true) :
    Written Break k.name (Spells [k.spelling]) :=
  (written_keyword k hk).imp fun _ => spells_of_ofKind (ne_of_isKeyword hk)

theorem spelled_punctuation (k : Kind) (hk : k.isPunctuation = true) :
    Written Anything k.name (Spells [k.spelling]) :=
  (written_punctuation k hk).imp fun _ =>
    spells_of_ofKind (ne_of_isSymbol (isSymbol_of_isPunctuation hk))

theorem spelled_spaced (k : Kind) (hk : k.isSymbol = true) :
    Written Anything (" " ++ k.name ++ " ") (Spells [k.spelling]) :=
  (written_spaced k hk).imp fun _ => spells_of_ofKind (ne_of_isSymbol hk)

theorem spelled_space : Written Anything " " (Spells []) := spelled_blanks rfl

theorem spelled_newline : Written Anything "\n" (Spells []) := spelled_blanks rfl

end Writing

namespace Printer

open Grammar Writing

/-! ## Expressions -/

theorem spelled_operator {k : Kind} (hk : k.isSymbol = true) {left right : String}
    {ss ss' : List Spelling} (hl : Written Break left (Spells ss))
    (hr : Written Break right (Spells ss')) :
    Written Break (left ++ (" " ++ k.name ++ " ") ++ right)
      (Spells (ss ++ k.spelling :: ss')) := by
  have hleft := hl.join (spelled_spaced k hk) fun rest _ => break_spaced _ rest
  have hboth := hleft.joinAny hr
  rwa [List.append_assoc] at hboth

theorem spelled_group {text : String} {ss : List Spelling} (h : Written Break text (Spells ss)) :
    Written Anything ("(" ++ text ++ ")") (Spells (enclosed .lparen .rparen ss)) :=
  ((spelled_punctuation .lparen rfl).joinAny h).join (spelled_punctuation .rparen rfl)
    fun _ _ => rfl

theorem symbol_of_isValid {op : Op} (h : op.isValid = true) :
    op.kind.isSymbol = true ∧ op.kind.name = op.symbol := by
  cases op with
  | other => cases h
  | _ => exact ⟨rfl, rfl⟩

theorem bin_spelled {op : Op} (hop : op.isValid = true) {l r : Expr}
    (hl : ∃ text, Adds (expr op.prec l) (.ok text) ∧
      Written Break text (Spells (l.spelling op.prec)))
    (hr : ∃ text, Adds (expr (op.prec + 1) r) (.ok text) ∧
      Written Break text (Spells (r.spelling (op.prec + 1)))) (pos : Int) (level : Nat) :
    ∃ text, Adds (expr level (.bin pos op l r)) (.ok text) ∧
      Written Break text (Spells ((Expr.bin pos op l r).spelling level)) := by
  obtain ⟨left, hleft, hl⟩ := hl
  obtain ⟨right, hright, hr⟩ := hr
  obtain ⟨hsymbol, hname⟩ := symbol_of_isValid hop
  have hbare := spelled_operator hsymbol hl hr
  rw [hname] at hbare
  have hprec : op.prec ≠ 0 := by simp [Op.prec_eq_zero_iff, hop]
  refine ⟨_, adds_bin hprec hleft hright pos level, ?_⟩
  rw [Expr.spelling]
  split
  · exact (spelled_group hbare).restrict
  · exact hbare

theorem expr_spelled {x : Expr} (h : x.Arithmetic) (level : Nat) :
    ∃ text, Adds (expr level x) (.ok text) ∧ Written Break text (Spells (x.spelling level)) := by
  induction h generalizing level with
  | @var pos name hname => exact ⟨name, adds_text name, spelled_name hname⟩
  | @lit pos text htext =>
      exact ⟨text, adds_text text, (written_numeral htext).imp fun _ => spells_of_numeral⟩
  | @bin pos op l r hop _ _ ihl ihr =>
      exact bin_spelled (op.isValid_of_isArithmetic hop) (ihl _) (ihr _) pos level

theorem comparison_spelled {x : Expr} (h : x.Comparison) :
    ∃ text, Adds (expr 0 x) (.ok text) ∧ Written Break text (Spells (x.spelling 0)) := by
  obtain @⟨pos, op, l, r, hop, hl, hr⟩ := h
  exact bin_spelled (op.isValid_of_isRelational hop) (expr_spelled hl _) (expr_spelled hr _) pos 0

/-! ## Statements -/

theorem spelled_indent (depth : Nat) : Written Anything (indent depth) (Spells []) := by
  apply spelled_blanks
  rw [indent, Bytes.ofString_eq_flatMap, String.toList_ofList, List.all_flatMap, List.all_eq_true]
  intro c hc
  rw [List.eq_of_mem_replicate hc]
  rfl

theorem spelled_line (k : Kind) (hk : k.isPunctuation = true) :
    Written Anything (k.name ++ "\n") (Spells [k.spelling]) :=
  (spelled_punctuation k hk).joinAny spelled_newline

theorem spelled_semicolon : Written Anything ";\n" (Spells [Kind.semicolon.spelling]) :=
  spelled_line .semicolon rfl

theorem spelled_sign : Written Anything " = " (Spells [Kind.assign.spelling]) :=
  spelled_spaced .assign rfl

theorem spelled_opening : Written Anything " (" (Spells [Kind.lparen.spelling]) :=
  spelled_space.joinAny (spelled_punctuation .lparen rfl)

theorem spelled_lbrace : Written Anything " \x7b\n" (Spells [Kind.lbrace.spelling]) :=
  spelled_space.joinAny (spelled_line .lbrace rfl)

theorem spelled_body :
    Written Anything ") \x7b\n" (Spells [Kind.rparen.spelling, Kind.lbrace.spelling]) :=
  (spelled_punctuation .rparen rfl).joinAny spelled_lbrace

theorem spelled_closing (depth : Nat) :
    Written Anything (closing depth) (Spells [Kind.rbrace.spelling]) :=
  (spelled_indent depth).joinAny (spelled_line .rbrace rfl)

theorem spelled_otherwise (depth : Nat) : Written Anything (otherwise depth)
    (Spells [Kind.rbrace.spelling, Kind.keyElse.spelling, Kind.lbrace.spelling]) := by
  have hbrace : Written Anything "\x7d " (Spells [Kind.rbrace.spelling]) :=
    (spelled_punctuation .rbrace rfl).joinAny spelled_space
  have helse : Written Anything "else \x7b\n"
      (Spells [Kind.keyElse.spelling, Kind.lbrace.spelling]) :=
    (spelled_keyword .keyElse rfl).join spelled_lbrace fun rest _ => rfl
  exact (spelled_indent depth).joinAny (hbrace.joinAny helse)

/-- The line that opens a loop or a branch, up to the brace. -/
theorem heading_spelled (clause : Clause) (key : Kind) (hkey : key.isKeyword = true)
    (hword : key.name = clause.word) {cond : Expr} (h : cond.Comparison) (depth : Nat) :
    ∃ text, Adds (heading depth clause cond) (.ok text) ∧
      Written Anything text (Spells (headingSpelling key cond ++ [Kind.lbrace.spelling])) := by
  obtain ⟨text, htext, hwritten⟩ := comparison_spelled h
  refine ⟨indent depth ++ clause.word ++ " (" ++ text ++ ") \x7b\n",
    ((htext.within (.condition clause)).behind _).before _, ?_⟩
  rw [← hword]
  have hkeyword := (spelled_indent depth).joinAny (spelled_keyword key hkey)
  have hopen := hkeyword.join spelled_opening fun rest _ => rfl
  have hcond := (hopen.joinAny hwritten).join spelled_body fun rest _ => rfl
  simpa [headingSpelling, enclosed] using hcond

theorem assign_spelled (pos : Int) {name : String} {value : Expr} (hname : IsName name)
    (hvalue : value.Arithmetic) (depth : Nat) :
    ∃ text, Adds (stmt depth (.assign pos name value)) (.ok text) ∧
      Written Anything text (Spells (Stmt.assign pos name value).spelling) := by
  obtain ⟨text, htext, hwritten⟩ := expr_spelled hvalue 0
  refine ⟨indent depth ++ name ++ " = " ++ text ++ ";\n",
    ((htext.within (.assignment name)).behind _).before _, ?_⟩
  have hleft := (spelled_indent depth).joinAny (spelled_name hname)
  have hsign := hleft.join spelled_sign fun rest _ => rfl
  have hline := (hsign.joinAny hwritten).join spelled_semicolon fun rest _ => rfl
  simpa [Stmt.spelling] using hline

theorem loop_spelled (pos : Int) {cond : Expr} {body : List Stmt} (hcond : cond.Comparison)
    (depth : Nat) {inner : String} (hinner : Adds (block (depth + 1) body) (.ok inner))
    (hbody : Written Anything inner (Spells (Stmt.spellingOf body))) :
    ∃ text, Adds (stmt depth (.loop pos cond body)) (.ok text) ∧
      Written Anything text (Spells (Stmt.loop pos cond body).spelling) := by
  obtain ⟨head, hhead, hheading⟩ := heading_spelled .loop .keyWhile rfl rfl hcond depth
  refine ⟨head ++ (inner ++ closing depth),
    hhead.andThen ((hinner.within .loopBody).before _), ?_⟩
  have hlines := hheading.joinAny (hbody.joinAny (spelled_closing depth))
  simpa [Stmt.spelling, enclosed] using hlines

theorem branch_spelled (pos : Int) {cond : Expr} {onTrue onFalse : List Stmt}
    (hcond : cond.Comparison) (depth : Nat) {yes no : String}
    (hyes : Adds (block (depth + 1) onTrue) (.ok yes))
    (hno : Adds (block (depth + 1) onFalse) (.ok no))
    (htrue : Written Anything yes (Spells (Stmt.spellingOf onTrue)))
    (hfalse : Written Anything no (Spells (Stmt.spellingOf onFalse))) :
    ∃ text, Adds (stmt depth (.branch pos cond onTrue onFalse)) (.ok text) ∧
      Written Anything text (Spells (Stmt.branch pos cond onTrue onFalse).spelling) := by
  obtain ⟨head, hhead, hheading⟩ := heading_spelled .branch .keyIf rfl rfl hcond depth
  cases onFalse with
  | nil =>
      refine ⟨head ++ (yes ++ closing depth),
        hhead.andThen ((hyes.within .thenBlock).before _), ?_⟩
      have hlines := hheading.joinAny (htrue.joinAny (spelled_closing depth))
      simpa [Stmt.spelling, enclosed] using hlines
  | cons s ss =>
      refine ⟨head ++ (yes ++ (otherwise depth ++ no ++ closing depth)),
        hhead.andThen ((hyes.within .thenBlock).andThen
          (((hno.within .elseBlock).behind _).before _)), ?_⟩
      have hback := ((spelled_otherwise depth).joinAny hfalse).joinAny (spelled_closing depth)
      have hlines := hheading.joinAny (htrue.joinAny hback)
      simpa [Stmt.spelling, enclosed] using hlines

/-- A statement in front of a block. -/
theorem cons_spelled {depth : Nat} {s : Stmt} {ss : List Stmt}
    (hs : ∃ text, Adds (stmt depth s) (.ok text) ∧ Written Anything text (Spells s.spelling))
    (hss : ∃ text, Adds (block depth ss) (.ok text) ∧
      Written Anything text (Spells (Stmt.spellingOf ss))) :
    ∃ text, Adds (block depth (s :: ss)) (.ok text) ∧
      Written Anything text (Spells (Stmt.spellingOf (s :: ss))) := by
  obtain ⟨first, hfirst, hwritten⟩ := hs
  obtain ⟨more, hmore, hrest⟩ := hss
  exact ⟨first ++ more, hfirst.andThen hmore, hwritten.joinAny hrest⟩

theorem block_spelled {ss : List Stmt} (h : Stmt.AreWellFormed ss) (depth : Nat) :
    ∃ text, Adds (block depth ss) (.ok text) ∧
      Written Anything text (Spells (Stmt.spellingOf ss)) := by
  induction h generalizing depth with
  | nil => exact ⟨"", adds_nil depth, spelled_blanks rfl⟩
  | @assign pos name value rest hname hvalue _ ih =>
      exact cons_spelled (assign_spelled pos hname hvalue depth) (ih depth)
  | @loop pos cond body rest hcond _ _ ihBody ihRest =>
      obtain ⟨inner, hinner, hbody⟩ := ihBody (depth + 1)
      exact cons_spelled (loop_spelled pos hcond depth hinner hbody) (ihRest depth)
  | @branch pos cond onTrue onFalse rest hcond _ _ _ ihTrue ihFalse ihRest =>
      obtain ⟨yes, hyes, htrue⟩ := ihTrue (depth + 1)
      obtain ⟨no, hno, hfalse⟩ := ihFalse (depth + 1)
      exact cons_spelled (branch_spelled pos hcond depth hyes hno htrue hfalse) (ihRest depth)

/-! ## Programs -/

theorem names_spelled {names : List String} (hne : names ≠ []) (h : ∀ n ∈ names, IsName n) :
    Written Break (String.intercalate ", " names) (Spells (namesSpelling names)) := by
  induction names with
  | nil => exact absurd rfl hne
  | cons n names ih =>
      have hn := spelled_name (h n List.mem_cons_self)
      cases names with
      | nil =>
          rw [String.intercalate_singleton]
          exact hn
      | cons m names =>
          have hmore := ih (by simp) fun x hx => h x (List.mem_cons_of_mem _ hx)
          have hcomma : Written Anything ", " (Spells [Kind.comma.spelling]) :=
            (spelled_punctuation .comma rfl).joinAny spelled_space
          rw [String.intercalate_cons_cons]
          exact (hn.join hcomma fun rest _ => rfl).joinAny hmore

theorem keyword_of_wellFormed {ty : Ty} (h : ty = .int ∨ ty = .real) :
    ty.kind.isKeyword = true ∧ ty.kind.name = ty.name := by
  rcases h with rfl | rfl
  · exact ⟨rfl, rfl⟩
  · exact ⟨rfl, rfl⟩

theorem decl_spelled {d : Decl} (h : d.WellFormed) :
    Written Anything (decl d) (Spells d.spelling) := by
  obtain ⟨hkey, hname⟩ := keyword_of_wellFormed h.ty
  have hword := (spelled_indent 1).joinAny (spelled_keyword d.ty.kind hkey)
  have hspaced := hword.join spelled_space fun rest _ => rfl
  have hnames := hspaced.joinAny (names_spelled h.nonempty h.names)
  have hline := hnames.join spelled_semicolon fun rest _ => rfl
  rw [decl, ← hname]
  simpa [Decl.spelling] using hline

theorem decls_spelled {ds : List Decl} (h : ∀ d ∈ ds, d.WellFormed) :
    Written Anything (String.join (ds.map decl)) (Spells (ds.flatMap Decl.spelling)) := by
  induction ds with
  | nil => exact spelled_blanks rfl
  | cons d ds ih =>
      rw [List.map_cons, String.join_cons]
      have hrest := ih fun x hx => h x (List.mem_cons_of_mem _ hx)
      exact (decl_spelled (h d List.mem_cons_self)).joinAny hrest

theorem preamble_spelled {p : Program} (h : p.WellFormed) :
    Written Anything (preambleText p) (Spells (preambleSpelling p.decls)) := by
  have hvar : Written Anything "var\n" (Spells [Kind.keyVar.spelling]) :=
    (spelled_keyword .keyVar rfl).join spelled_newline fun rest _ => rfl
  -- the empty line before the statements is nothing but a blank
  have hgap : Written Anything (if p.stmts.isEmpty then "" else "\n") (Spells []) := by
    split
    · exact spelled_blanks rfl
    · exact spelled_newline
  rw [preambleText, preambleSpelling]
  split
  · exact spelled_blanks rfl
  · have hlines := (hvar.joinAny (decls_spelled h.decls)).joinAny hgap
    rwa [List.append_nil] at hlines

/-- A well-formed program has a text, and the tokens of the text are spelled like
the program. -/
theorem format_spelled {p : Program} (h : p.WellFormed) :
    ∃ text, p.formatOnto "" = .ok text ∧ Written Anything text (Spells p.spelling) := by
  obtain ⟨body, hbody, hstmts⟩ := block_spelled h.stmts 0
  refine ⟨preambleText p ++ body, ?_, (preamble_spelled h).joinAny hstmts⟩
  have hadds : p.formatOnto "" = .ok ("" ++ (preambleText p ++ body)) := adds_formatOnto hbody ""
  rw [hadds, String.empty_append]

/-- A well-formed program has a text, and the text spells a sentence of the
grammar that derives the program. -/
theorem format_written {p : Program} (h : p.WellFormed) :
    ∃ text, p.formatOnto "" = .ok text ∧ Written Anything text (Sentence · p.erase) := by
  obtain ⟨text, htext, hspelled⟩ := format_spelled h
  exact ⟨text, htext, hspelled.imp fun _ => sentence_of_spells h⟩

end Printer

end ThreeAddress
