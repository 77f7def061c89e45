import ThreeAddress.Proofs.Grammar.Basic
import ThreeAddress.Proofs.Lexing.Reading

/-!
# Trees of texts

Tokens that were read from a text are spelled as their kinds require. What such
tokens derive in the grammar is well-formed.
-/

namespace ThreeAddress

/-- A name where a name is due, and a numeral where a numeral is due. -/
def Token.Spelled (t : Token) : Prop :=
  (t.kind = .ident → IsName t.text) ∧ (t.kind = .number → IsNumeral t.text)

theorem spelled_of_mem_tokenize {text : Bytes} {t : Token} (h : t ∈ tokenize text) :
    t.Spelled := by
  rcases Cursor.lexeme_of_mem_all h with heof | ⟨bs, w, hlexeme, htext⟩
  · constructor <;> (intro hkind; rw [heof] at hkind; cases hkind)
  · rw [Token.Spelled, htext]
    constructor
    · intro hkind
      rw [hkind] at hlexeme
      exact isName_of_lexeme? hlexeme
    · intro hkind
      rw [hkind] at hlexeme
      exact isNumeral_of_lexeme? hlexeme

namespace Grammar

theorem SumOp.isArithmetic {k : Kind} {op : Op} (h : SumOp k op) : op.isArithmetic = true := by
  cases h <;> rfl

theorem ProductOp.isArithmetic {k : Kind} {op : Op} (h : ProductOp k op) :
    op.isArithmetic = true := by
  cases h <;> rfl

theorem RelOp.isRelational {k : Kind} {op : Op} (h : RelOp k op) : op.isRelational = true := by
  cases h <;> rfl

theorem Phrase.arithmetic {level : Level} {w : List Token} {x : Expr} (h : Phrase level w x)
    (hw : ∀ t ∈ w, t.Spelled) : x.Arithmetic := by
  induction h with
  | @ident t hkind => exact .var ((hw t (by simp)).1 hkind)
  | @number t hkind => exact .lit ((hw t (by simp)).2 hkind)
  | group _ _ _ ih => exact ih fun t ht => hw t (by simp [ht])
  | term _ ih => exact ih hw
  | product _ hop _ ihx ihy =>
      exact .bin hop.isArithmetic (ihx fun t ht => hw t (by simp [ht]))
        (ihy fun t ht => hw t (by simp [ht]))
  | expr _ ih => exact ih hw
  | sum _ hop _ ihx ihy =>
      exact .bin hop.isArithmetic (ihx fun t ht => hw t (by simp [ht]))
        (ihy fun t ht => hw t (by simp [ht]))

theorem Relation.comparison {w : List Token} {x : Expr} (h : Relation w x)
    (hw : ∀ t ∈ w, t.Spelled) : x.Comparison := by
  cases h with
  | compare hx hop hy =>
      exact .compare hop.isRelational (hx.arithmetic fun t ht => hw t (by simp [ht]))
        (hy.arithmetic fun t ht => hw t (by simp [ht]))

/-- The statements that a phrase stands for. -/
def Symbol.statements : (symbol : Symbol) → symbol.Tree → List Stmt
  | .stmt, s => [s]
  | .stmts, ss | .block, ss => ss

theorem Derives.areWellFormed {symbol : Symbol} {w : List Token} {tree : symbol.Tree}
    (h : Derives symbol w tree) (hw : ∀ t ∈ w, t.Spelled) :
    Stmt.AreWellFormed (symbol.statements tree) := by
  induction h with
  | @assign name sign semicolon w x hname _ hx _ =>
      exact .assign ((hw name (by simp)).1 hname) (hx.arithmetic fun t ht => hw t (by simp [ht]))
        .nil
  | loop _ _ hx _ _ ih =>
      exact .loop (hx.comparison fun t ht => hw t (by simp [ht]))
        (ih fun t ht => hw t (by simp [ht])) .nil
  | branch _ _ hx _ _ ih =>
      exact .branch (hx.comparison fun t ht => hw t (by simp [ht]))
        (ih fun t ht => hw t (by simp [ht])) .nil .nil
  | branchElse _ _ hx _ _ _ _ ihTrue ihFalse =>
      exact .branch (hx.comparison fun t ht => hw t (by simp [ht]))
        (ihTrue fun t ht => hw t (by simp [ht])) (ihFalse fun t ht => hw t (by simp [ht])) .nil
  | nil => exact .nil
  | cons _ _ ihs ihss =>
      exact (ihs fun t ht => hw t (by simp [ht])).append (ihss fun t ht => hw t (by simp [ht]))
  | block _ _ _ ih => exact ih fun t ht => hw t (by simp [ht])

theorem Names.isName {w : List Token} {ns : List String} (h : Names w ns)
    (hw : ∀ t ∈ w, t.Spelled) : ns ≠ [] ∧ ∀ n ∈ ns, IsName n := by
  induction h with
  | @one t hident =>
      refine ⟨by simp, fun n hn => ?_⟩
      rw [List.mem_singleton] at hn
      subst hn
      exact (hw t (by simp)).1 hident
  | @more t comma w ns hident _ _ ih =>
      refine ⟨by simp, fun n hn => ?_⟩
      rcases List.mem_cons.mp hn with rfl | hn
      · exact (hw t (by simp)).1 hident
      · exact (ih fun t ht => hw t (by simp [ht])).2 n hn

theorem TypeWord.int_or_real {k : Kind} {ty : Ty} (h : TypeWord k ty) :
    ty = .int ∨ ty = .real := by
  cases h <;> simp

theorem Declarations.wellFormed {w : List Token} {ds : List Decl} (h : Declarations w ds)
    (hw : ∀ t ∈ w, t.Spelled) : ∀ d ∈ ds, d.WellFormed := by
  induction h with
  | nil => simp
  | cons htype hnames _ _ ih =>
      intro d hd
      rcases List.mem_cons.mp hd with rfl | hd
      · obtain ⟨hne, hall⟩ := hnames.isName fun t ht => hw t (by simp [ht])
        exact ⟨htype.int_or_real, hne, hall⟩
      · exact ih (fun t ht => hw t (by simp [ht])) d hd

theorem Sentence.wellFormed {w : List Token} {p : Program} (h : Sentence w p)
    (hw : ∀ t ∈ w, t.Spelled) : p.WellFormed := by
  cases h with
  | plain hss => exact ⟨by simp, hss.areWellFormed hw⟩
  | declared _ hds hss =>
      exact ⟨hds.wellFormed fun t ht => hw t (by simp [ht]),
        hss.areWellFormed fun t ht => hw t (by simp [ht])⟩

end Grammar

end ThreeAddress
