import ThreeAddress.Proofs.Grammar.Basic
import ThreeAddress.Proofs.Program.WellFormed

/-!
# How trees are spelled

The spelling of a tree is the list of kinds and texts that its tokens have when
it is printed, layout aside. Tokens spelled like a well-formed tree derive the
tree. For an expression the level it is spelled at decides which phrase they are:
the parentheses stand exactly where an operator would otherwise be joined at the
wrong level of the grammar.
-/

namespace ThreeAddress

/-! ## Spellings -/

/-- A kind and a text, which is all that a grammar may look at. -/
abbrev Spelling := Kind × String

/-- How a keyword or a symbol is spelled. -/
def Kind.spelling (k : Kind) : Spelling := (k, k.name)

/-- How a token is spelled. Kinds other than names and numerals have one text each. -/
def Token.spelling (t : Token) : Spelling :=
  if t.kind = .ident ∨ t.kind = .number then (t.kind, t.text) else t.kind.spelling

/-- The kind of token an operator is written as; operators outside the language
are not written. -/
def Op.kind : Op → Kind
  | .add => .plus
  | .sub => .minus
  | .mul => .star
  | .div => .slash
  | .pow => .caret
  | .lt => .less
  | .gt => .greater
  | .le => .lessEq
  | .ge => .greaterEq
  | .eq => .equal
  | .ne => .notEqual
  | .other .. => .eof

/-- The kind of token a type is written as. -/
def Ty.kind : Ty → Kind
  | .int => .keyInt
  | .real => .keyReal
  | .other .. => .eof

/-- Something in parentheses or in braces. -/
def enclosed (opening closing : Kind) (ss : List Spelling) : List Spelling :=
  opening.spelling :: (ss ++ [closing.spelling])

/-- An expression where operators that bind less tightly than `level` need
parentheses. -/
def Expr.spelling (level : Nat) : Expr → List Spelling
  | .var _ name => [(.ident, name)]
  | .lit _ text => [(.number, text)]
  | .missing => []
  | .bin _ op l r =>
    let bare := l.spelling op.prec ++ op.kind.spelling :: r.spelling (op.prec + 1)
    if op.prec < level then enclosed .lparen .rparen bare else bare

/-- What stands in front of the block of a loop or a branch. -/
def headingSpelling (key : Kind) (cond : Expr) : List Spelling :=
  key.spelling :: enclosed .lparen .rparen (cond.spelling 0)

mutual

def Stmt.spelling : Stmt → List Spelling
  | .assign _ name value =>
    (.ident, name) :: Kind.assign.spelling :: (value.spelling 0 ++ [Kind.semicolon.spelling])
  | .loop _ cond body =>
    headingSpelling .keyWhile cond ++ enclosed .lbrace .rbrace (Stmt.spellingOf body)
  | .branch _ cond onTrue onFalse =>
    headingSpelling .keyIf cond ++ (enclosed .lbrace .rbrace (Stmt.spellingOf onTrue) ++
      if onFalse.isEmpty then []
      else Kind.keyElse.spelling :: enclosed .lbrace .rbrace (Stmt.spellingOf onFalse))
  | .missing => []

/-- Statements one after the other. -/
def Stmt.spellingOf : List Stmt → List Spelling
  | [] => []
  | s :: ss => s.spelling ++ Stmt.spellingOf ss

end

/-- Names with commas between them. -/
def namesSpelling (names : List String) : List Spelling :=
  (names.map fun n => (.ident, n)).intersperse Kind.comma.spelling

def Decl.spelling (d : Decl) : List Spelling :=
  d.ty.kind.spelling :: (namesSpelling d.names ++ [Kind.semicolon.spelling])

/-- The declarations, behind a keyword of their own if there are any. -/
def preambleSpelling (ds : List Decl) : List Spelling :=
  if ds.isEmpty then [] else Kind.keyVar.spelling :: ds.flatMap Decl.spelling

def Program.spelling (p : Program) : List Spelling :=
  preambleSpelling p.decls ++ Stmt.spellingOf p.stmts

/-! ## Tokens that are spelled so -/

def Spells (ss : List Spelling) (w : List Token) : Prop := w.map Token.spelling = ss

namespace Token

variable {t : Token} {s : String}

theorem spelling_of_ident (h : t.kind = .ident) : t.spelling = (.ident, t.text) := by
  rw [spelling, if_pos (.inl h), h]

theorem spelling_of_number (h : t.kind = .number) : t.spelling = (.number, t.text) := by
  rw [spelling, if_pos (.inr h), h]

theorem spelling_of_kind {k : Kind} (h : t.kind = k)
    (hk : k ≠ .ident ∧ k ≠ .number := by decide) : t.spelling = k.spelling := by
  rw [spelling, h, if_neg (not_or.mpr hk)]

theorem kind_spelling (t : Token) : t.spelling.1 = t.kind := by
  unfold spelling
  split <;> rfl

theorem kind_of_spelling {k : Kind} (h : t.spelling = k.spelling) : t.kind = k := by
  rw [← t.kind_spelling, h]
  rfl

theorem of_spelling_ident (h : t.spelling = (.ident, s)) : t.kind = .ident ∧ t.text = s := by
  have hkind : t.kind = .ident := by rw [← t.kind_spelling, h]
  rw [spelling_of_ident hkind] at h
  exact ⟨hkind, congrArg Prod.snd h⟩

theorem of_spelling_number (h : t.spelling = (.number, s)) : t.kind = .number ∧ t.text = s := by
  have hkind : t.kind = .number := by rw [← t.kind_spelling, h]
  rw [spelling_of_number hkind] at h
  exact ⟨hkind, congrArg Prod.snd h⟩

end Token

section

variable {s : Spelling} {ss ss' : List Spelling} {w : List Token}

theorem spells_nil_iff : Spells [] w ↔ w = [] := List.map_eq_nil_iff

theorem spells_cons_iff :
    Spells (s :: ss) w ↔ ∃ t v, w = t :: v ∧ t.spelling = s ∧ Spells ss v :=
  List.map_eq_cons_iff

theorem spells_append_iff :
    Spells (ss ++ ss') w ↔ ∃ u v, w = u ++ v ∧ Spells ss u ∧ Spells ss' v :=
  List.map_eq_append_iff

theorem spells_singleton_iff : Spells [s] w ↔ ∃ t, w = [t] ∧ t.spelling = s := by
  simp [Spells, List.map_eq_singleton_iff]

theorem spells_enclosed {first last : Kind} (h : Spells (enclosed first last ss) w) :
    ∃ opening u closing, w = opening :: (u ++ [closing]) ∧ opening.kind = first ∧
      Spells ss u ∧ closing.kind = last := by
  obtain ⟨opening, _, rfl, hopen, h⟩ := spells_cons_iff.mp h
  obtain ⟨u, _, rfl, hu, h⟩ := spells_append_iff.mp h
  obtain ⟨closing, rfl, hclose⟩ := spells_singleton_iff.mp h
  exact ⟨opening, u, closing, rfl, Token.kind_of_spelling hopen, hu,
    Token.kind_of_spelling hclose⟩

end

/-! ## Expressions -/

namespace Printer

open Grammar

/-- The phrases that operands printed at a level are. -/
def phraseLevel (level : Nat) : Level :=
  if level ≤ 2 then .expr else if level = 3 then .term else .factor

end Printer

namespace Grammar

open Printer

theorem phrase_of_factor {w : List Token} {x : Expr} (h : Phrase .factor w x) (level : Level) :
    Phrase level w x := by
  cases level with
  | factor => exact h
  | term => exact .term h
  | expr => exact .expr (.term h)

/-- What fits at a level fits at every lower one. -/
theorem Phrase.lower {low high : Nat} (hle : low ≤ high) {w : List Token} {x : Expr}
    (h : Phrase (phraseLevel high) w x) : Phrase (phraseLevel low) w x := by
  unfold phraseLevel at h ⊢
  by_cases hexpr : high ≤ 2
  · rw [if_pos (by omega)]
    rwa [if_pos hexpr] at h
  · rw [if_neg hexpr] at h
    by_cases hterm : high = 3
    · rw [if_pos hterm] at h
      split
      · exact .expr h
      · rw [if_pos (by omega)]
        exact h
    · rw [if_neg hterm] at h
      exact phrase_of_factor h _

theorem op_of_isArithmetic {op : Op} (h : op.isArithmetic = true) :
    SumOp op.kind op ∧ op.prec = 2 ∨ ProductOp op.kind op ∧ op.prec = 3 := by
  cases op with
  | add => exact .inl ⟨.plus, rfl⟩
  | sub => exact .inl ⟨.minus, rfl⟩
  | mul => exact .inr ⟨.star, rfl⟩
  | div => exact .inr ⟨.slash, rfl⟩
  | pow => exact .inr ⟨.caret, rfl⟩
  | lt | gt | le | ge | eq | ne | other => cases h

theorem op_of_isRelational {op : Op} (h : op.isRelational = true) :
    RelOp op.kind op ∧ op.prec = 1 := by
  cases op with
  | lt => exact ⟨.less, rfl⟩
  | gt => exact ⟨.greater, rfl⟩
  | le => exact ⟨.lessEq, rfl⟩
  | ge => exact ⟨.greaterEq, rfl⟩
  | eq => exact ⟨.equal, rfl⟩
  | ne => exact ⟨.notEqual, rfl⟩
  | add | sub | mul | div | pow | other => cases h

theorem phrase_of_spells {x : Expr} (h : x.Arithmetic) {level : Nat} {w : List Token}
    (hw : Spells (x.spelling level) w) : Phrase (phraseLevel level) w x.erase := by
  induction h generalizing level w with
  | @var pos name _ =>
      obtain ⟨t, rfl, ht⟩ := spells_singleton_iff.mp hw
      obtain ⟨hkind, rfl⟩ := Token.of_spelling_ident ht
      exact phrase_of_factor (.ident hkind) _
  | @lit pos text _ =>
      obtain ⟨t, rfl, ht⟩ := spells_singleton_iff.mp hw
      obtain ⟨hkind, rfl⟩ := Token.of_spelling_number ht
      exact phrase_of_factor (.number hkind) _
  | @bin pos op l r hop _ _ ihl ihr =>
      -- the levels of the operands are those that the rule for the operator asks for
      have hbare : ∀ u,
          Spells (l.spelling op.prec ++ op.kind.spelling :: r.spelling (op.prec + 1)) u →
          Phrase (phraseLevel op.prec) u (.bin 0 op l.erase r.erase) := by
        intro u hu
        obtain ⟨u, _, rfl, hl, hu⟩ := spells_append_iff.mp hu
        obtain ⟨t, v, rfl, ht, hr⟩ := spells_cons_iff.mp hu
        have hkind := Token.kind_of_spelling ht
        have hleft := ihl hl
        have hright := ihr hr
        rcases op_of_isArithmetic hop with ⟨hsum, hprec⟩ | ⟨hproduct, hprec⟩
        · rw [hprec] at hleft hright ⊢
          exact .sum hleft (hkind ▸ hsum) hright
        · rw [hprec] at hleft hright ⊢
          exact .product hleft (hkind ▸ hproduct) hright
      rw [Expr.spelling] at hw
      split at hw
      · -- in parentheses the operator makes a factor, which fits at every level
        obtain ⟨opening, u, closing, rfl, hopen, hu, hclose⟩ := spells_enclosed hw
        have hexpr : Phrase .expr u _ := Phrase.lower (Nat.zero_le _) (hbare u hu)
        exact phrase_of_factor (.group hopen hexpr hclose) _
      · exact Phrase.lower (by omega) (hbare w hw)

theorem relation_of_spells {x : Expr} (h : x.Comparison) {w : List Token}
    (hw : Spells (x.spelling 0) w) : Relation w x.erase := by
  obtain @⟨pos, op, l, r, hop, hl, hr⟩ := h
  obtain ⟨hrel, hprec⟩ := op_of_isRelational hop
  -- a condition is spelled at the lowest level, never in parentheses of its own
  rw [Expr.spelling, if_neg (Nat.not_lt_zero _)] at hw
  obtain ⟨u, _, rfl, hu, hw⟩ := spells_append_iff.mp hw
  obtain ⟨t, v, rfl, ht, hv⟩ := spells_cons_iff.mp hw
  rw [hprec] at hu hv
  rw [← Token.kind_of_spelling ht] at hrel
  exact .compare (phrase_of_spells hl hu) hrel (phrase_of_spells hr hv)

/-! ## Statements -/

/-- The tokens in front of the block of a loop or a branch. -/
theorem heading_of_spells {key : Kind} {cond : Expr} (h : cond.Comparison) {w : List Token}
    (hw : Spells (headingSpelling key cond) w) :
    ∃ t opening u closing, w = t :: opening :: (u ++ [closing]) ∧ t.kind = key ∧
      opening.kind = .lparen ∧ Relation u cond.erase ∧ closing.kind = .rparen := by
  obtain ⟨t, _, rfl, ht, hw⟩ := spells_cons_iff.mp hw
  obtain ⟨opening, u, closing, rfl, hopen, hu, hclose⟩ := spells_enclosed hw
  exact ⟨t, opening, u, closing, rfl, Token.kind_of_spelling ht, hopen,
    relation_of_spells h hu, hclose⟩

theorem block_of_spells {ss : List Stmt}
    (h : ∀ u, Spells (Stmt.spellingOf ss) u → Derives .stmts u (Stmt.eraseAll ss))
    {w : List Token} (hw : Spells (enclosed .lbrace .rbrace (Stmt.spellingOf ss)) w) :
    Derives .block w (Stmt.eraseAll ss) := by
  obtain ⟨opening, u, closing, rfl, hopen, hu, hclose⟩ := spells_enclosed hw
  exact .block hopen (h u hu) hclose

theorem assign_of_spells {pos : Int} {name : String} {value : Expr} (hvalue : value.Arithmetic)
    {w : List Token} (hw : Spells (Stmt.assign pos name value).spelling w) :
    Derives .stmt w (.assign 0 name value.erase) := by
  rw [Stmt.spelling] at hw
  obtain ⟨t, _, rfl, ht, hw⟩ := spells_cons_iff.mp hw
  obtain ⟨sign, _, rfl, hsign, hw⟩ := spells_cons_iff.mp hw
  obtain ⟨u, _, rfl, hu, hw⟩ := spells_append_iff.mp hw
  obtain ⟨semicolon, rfl, hsemi⟩ := spells_singleton_iff.mp hw
  obtain ⟨hident, rfl⟩ := Token.of_spelling_ident ht
  exact Derives.assign hident (Token.kind_of_spelling hsign) (phrase_of_spells hvalue hu)
    (Token.kind_of_spelling hsemi)

theorem loop_of_spells {pos : Int} {cond : Expr} {body : List Stmt} (hcond : cond.Comparison)
    (hbody : ∀ u, Spells (Stmt.spellingOf body) u → Derives .stmts u (Stmt.eraseAll body))
    {w : List Token} (hw : Spells (Stmt.loop pos cond body).spelling w) :
    Derives .stmt w (.loop 0 cond.erase (Stmt.eraseAll body)) := by
  rw [Stmt.spelling] at hw
  obtain ⟨_, v, rfl, hhead, hv⟩ := spells_append_iff.mp hw
  obtain ⟨t, opening, u, closing, rfl, ht, hopen, hu, hclose⟩ := heading_of_spells hcond hhead
  simpa using Derives.loop ht hopen hu hclose (block_of_spells hbody hv)

theorem branch_of_spells {pos : Int} {cond : Expr} {onTrue onFalse : List Stmt}
    (hcond : cond.Comparison)
    (htrue : ∀ u, Spells (Stmt.spellingOf onTrue) u → Derives .stmts u (Stmt.eraseAll onTrue))
    (hfalse : ∀ u, Spells (Stmt.spellingOf onFalse) u → Derives .stmts u (Stmt.eraseAll onFalse))
    {w : List Token} (hw : Spells (Stmt.branch pos cond onTrue onFalse).spelling w) :
    Derives .stmt w (.branch 0 cond.erase (Stmt.eraseAll onTrue) (Stmt.eraseAll onFalse)) := by
  rw [Stmt.spelling] at hw
  obtain ⟨_, _, rfl, hhead, hblocks⟩ := spells_append_iff.mp hw
  obtain ⟨t, opening, u, closing, rfl, ht, hopen, hu, hclose⟩ := heading_of_spells hcond hhead
  obtain ⟨v, v', rfl, hv, helse⟩ := spells_append_iff.mp hblocks
  have hyes := block_of_spells htrue hv
  -- an empty else part is left out, and left out is how it reads back
  cases onFalse with
  | nil =>
      have hnone : v' = [] := spells_nil_iff.mp helse
      subst hnone
      simpa [Stmt.eraseAll] using Derives.branch ht hopen hu hclose hyes
  | cons s ss =>
      obtain ⟨key, v', rfl, hkey, hno⟩ := spells_cons_iff.mp helse
      have hno := block_of_spells hfalse hno
      simpa using Derives.branchElse ht hopen hu hclose hyes (Token.kind_of_spelling hkey) hno

theorem derives_of_spells {ss : List Stmt} (h : Stmt.AreWellFormed ss) :
    ∀ w, Spells (Stmt.spellingOf ss) w → Derives .stmts w (Stmt.eraseAll ss) := by
  induction h with
  | nil =>
      intro w hw
      rw [spells_nil_iff.mp hw]
      exact .nil
  | assign _ hvalue _ ih =>
      intro w hw
      obtain ⟨u, v, rfl, hu, hv⟩ := spells_append_iff.mp hw
      exact .cons (assign_of_spells hvalue hu) (ih v hv)
  | loop hcond _ _ ihBody ihRest =>
      intro w hw
      obtain ⟨u, v, rfl, hu, hv⟩ := spells_append_iff.mp hw
      exact .cons (loop_of_spells hcond ihBody hu) (ihRest v hv)
  | branch hcond _ _ _ ihTrue ihFalse ihRest =>
      intro w hw
      obtain ⟨u, v, rfl, hu, hv⟩ := spells_append_iff.mp hw
      exact .cons (branch_of_spells hcond ihTrue ihFalse hu) (ihRest v hv)

/-! ## Programs -/

theorem names_of_spells {names : List String} (hne : names ≠ []) {w : List Token}
    (hw : Spells (namesSpelling names) w) : Names w names := by
  induction names generalizing w with
  | nil => exact absurd rfl hne
  | cons n names ih =>
      cases names with
      | nil =>
          obtain ⟨t, rfl, ht⟩ := spells_singleton_iff.mp hw
          obtain ⟨hident, rfl⟩ := Token.of_spelling_ident ht
          exact .one hident
      | cons m names =>
          obtain ⟨t, _, rfl, ht, hw⟩ := spells_cons_iff.mp hw
          obtain ⟨comma, v, rfl, hcomma, hv⟩ := spells_cons_iff.mp hw
          obtain ⟨hident, rfl⟩ := Token.of_spelling_ident ht
          exact .more hident (Token.kind_of_spelling hcomma) (ih (by simp) hv)

theorem typeWord_of_wellFormed {ty : Ty} (h : ty = .int ∨ ty = .real) : TypeWord ty.kind ty := by
  rcases h with rfl | rfl
  · exact .int
  · exact .real

theorem declarations_of_spells {ds : List Decl} (h : ∀ d ∈ ds, d.WellFormed) {w : List Token}
    (hw : Spells (ds.flatMap Decl.spelling) w) : Declarations w (ds.map Decl.erase) := by
  induction ds generalizing w with
  | nil =>
      rw [spells_nil_iff.mp hw]
      exact .nil
  | cons d ds ih =>
      have hd := h d List.mem_cons_self
      obtain ⟨_, v, rfl, hdecl, hv⟩ := spells_append_iff.mp hw
      obtain ⟨t, _, rfl, ht, htail⟩ := spells_cons_iff.mp hdecl
      obtain ⟨u, _, rfl, hu, hlast⟩ := spells_append_iff.mp htail
      obtain ⟨semicolon, rfl, hsemi⟩ := spells_singleton_iff.mp hlast
      have htype := typeWord_of_wellFormed hd.ty
      rw [← Token.kind_of_spelling ht] at htype
      have hrest := ih (fun x hx => h x (List.mem_cons_of_mem _ hx)) hv
      simpa [Decl.erase] using Declarations.cons htype (names_of_spells hd.nonempty hu)
        (Token.kind_of_spelling hsemi) hrest

/-- Tokens spelled like a well-formed program are a sentence that derives it. -/
theorem sentence_of_spells {p : Program} (h : p.WellFormed) {w : List Token}
    (hw : Spells p.spelling w) : Sentence w p.erase := by
  obtain ⟨pos, ds, ss⟩ := p
  obtain ⟨u, v, rfl, hu, hv⟩ := spells_append_iff.mp hw
  have hstmts := derives_of_spells h.stmts v hv
  cases ds with
  | nil =>
      rw [spells_nil_iff.mp hu]
      exact .plain hstmts
  | cons d ds =>
      obtain ⟨key, u, rfl, hkey, hu⟩ := spells_cons_iff.mp hu
      exact .declared (Token.kind_of_spelling hkey) (declarations_of_spells h.decls hu) hstmts

end Grammar

end ThreeAddress
