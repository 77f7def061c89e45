import ThreeAddress.Proofs.Program.Blocks
import ThreeAddress.Proofs.Program.Erasure
import ThreeAddress.Token.Basic

/-!
# Well-formed programs

What a program looks like that somebody could have written down: names and
numerals are spelled as such, declarations have a type and at least one name,
conditions compare two arithmetic expressions and nothing else compares. Where
the nodes stand does not matter.
-/

namespace ThreeAddress

/-! ## Names and numerals -/

def isNameStart (c : Char) : Bool := c.isAlpha || c == '_'

def isNameChar (c : Char) : Bool := isNameStart c || c.isDigit

/-- The pattern `[A-Za-z_][A-Za-z0-9_]*`. -/
def IsWord (s : String) : Prop :=
  ∃ c cs, s.toList = c :: cs ∧ isNameStart c = true ∧ cs.all isNameChar = true

instance (s : String) : Decidable (IsWord s) :=
  match h : s.toList with
  | [] => isFalse fun ⟨_, _, hs, _⟩ => by simp [h] at hs
  | c :: cs => decidable_of_iff (isNameStart c = true ∧ cs.all isNameChar = true) <| by
      constructor
      · exact fun hcs => ⟨c, cs, h, hcs⟩
      · rintro ⟨c', cs', hs, hcs⟩
        rw [h] at hs
        cases hs
        exact hcs

/-- A word that is no keyword. -/
def IsName (s : String) : Prop := IsWord s ∧ ∀ k ∈ Kind.keywords, k.name ≠ s

instance (s : String) : Decidable (IsName s) := inferInstanceAs (Decidable (_ ∧ _))

def IsDigits (cs : List Char) : Prop := cs ≠ [] ∧ cs.all Char.isDigit = true

/-- The pattern `digit+ ('.' digit+)?`. -/
def IsNumeral (s : String) : Prop :=
  IsDigits s.toList ∨
    ∃ whole fraction, IsDigits whole ∧ IsDigits fraction ∧ s.toList = whole ++ '.' :: fraction

/-! ## Trees -/

def Op.isArithmetic : Op → Bool
  | .add | .sub | .mul | .div | .pow => true
  | _ => false

/-- Names and numerals under arithmetic operators. -/
inductive Expr.Arithmetic : Expr → Prop
  | var {pos : Int} {name : String} : IsName name → Arithmetic (.var pos name)
  | lit {pos : Int} {text : String} : IsNumeral text → Arithmetic (.lit pos text)
  | bin {pos : Int} {op : Op} {left right : Expr} : op.isArithmetic = true →
      Arithmetic left → Arithmetic right → Arithmetic (.bin pos op left right)

/-- A relational operator over two arithmetic expressions. -/
inductive Expr.Comparison : Expr → Prop
  | compare {pos : Int} {op : Op} {left right : Expr} : op.isRelational = true →
      left.Arithmetic → right.Arithmetic → Comparison (.bin pos op left right)

/-- All statements of a block are well-formed, those inside them included. -/
inductive Stmt.AreWellFormed : List Stmt → Prop
  | nil : AreWellFormed []
  | assign {pos : Int} {name : String} {value : Expr} {rest : List Stmt} : IsName name →
      value.Arithmetic → AreWellFormed rest → AreWellFormed (.assign pos name value :: rest)
  | loop {pos : Int} {cond : Expr} {body rest : List Stmt} : cond.Comparison →
      AreWellFormed body → AreWellFormed rest → AreWellFormed (.loop pos cond body :: rest)
  | branch {pos : Int} {cond : Expr} {onTrue onFalse rest : List Stmt} : cond.Comparison →
      AreWellFormed onTrue → AreWellFormed onFalse → AreWellFormed rest →
      AreWellFormed (.branch pos cond onTrue onFalse :: rest)

structure Decl.WellFormed (d : Decl) : Prop where
  ty : d.ty = .int ∨ d.ty = .real
  nonempty : d.names ≠ []
  names : ∀ n ∈ d.names, IsName n

structure Program.WellFormed (p : Program) : Prop where
  decls : ∀ d ∈ p.decls, d.WellFormed
  stmts : Stmt.AreWellFormed p.stmts

theorem Stmt.AreWellFormed.append {block rest : List Stmt} (h : Stmt.AreWellFormed block)
    (hrest : Stmt.AreWellFormed rest) : Stmt.AreWellFormed (block ++ rest) := by
  induction h with
  | nil => exact hrest
  | assign hname hvalue _ ih => exact .assign hname hvalue ih
  | loop hcond hbody _ _ ih => exact .loop hcond hbody ih
  | branch hcond hT hF _ _ _ ih => exact .branch hcond hT hF ih

/-! ## Well-formed trees are supported -/

theorem Op.isValid_of_isArithmetic {op : Op} (h : op.isArithmetic = true) : op.isValid = true := by
  cases op with
  | add | sub | mul | div | pow => rfl
  | lt | gt | le | ge | eq | ne | other => cases h

theorem Op.isValid_of_isRelational {op : Op} (h : op.isRelational = true) : op.isValid = true := by
  cases op with
  | lt | gt | le | ge | eq | ne => rfl
  | add | sub | mul | div | pow | other => cases h

theorem Expr.Arithmetic.isSupported {x : Expr} (h : x.Arithmetic) : x.isSupported = true := by
  induction h with
  | var | lit => rfl
  | bin hop _ _ ihl ihr => simp [Expr.isSupported, Op.isValid_of_isArithmetic hop, ihl, ihr]

theorem Expr.Comparison.isSupported {x : Expr} (h : x.Comparison) : x.isSupported = true := by
  cases h with
  | compare hop hl hr =>
      simp [Expr.isSupported, Op.isValid_of_isRelational hop, hl.isSupported, hr.isSupported]

theorem Stmt.AreWellFormed.areSupported {block : List Stmt} (h : Stmt.AreWellFormed block) :
    Stmt.areSupported block = true := by
  induction h with
  | nil => rfl
  | assign _ hvalue _ ih => simp [Stmt.areSupported, Stmt.isSupported, hvalue.isSupported, ih]
  | loop hcond _ _ ihBody ihRest =>
      simp [Stmt.areSupported, Stmt.isSupported, hcond.isSupported, ihBody, ihRest]
  | branch hcond _ _ _ ihTrue ihFalse ihRest =>
      simp [Stmt.areSupported, Stmt.isSupported, hcond.isSupported, ihTrue, ihFalse, ihRest]

/-! ## Well-formedness of the erasure -/

theorem Expr.Arithmetic.of_erase {x : Expr} (h : x.erase.Arithmetic) : x.Arithmetic := by
  induction x with
  | bin pos op l r ihl ihr =>
      cases h with
      | bin hop hl hr => exact .bin hop (ihl hl) (ihr hr)
  | lit pos text =>
      cases h with
      | lit ht => exact .lit ht
  | var pos name =>
      cases h with
      | var hn => exact .var hn
  | missing => cases h

theorem Expr.Comparison.of_erase {x : Expr} (h : x.erase.Comparison) : x.Comparison := by
  cases x with
  | bin pos op l r =>
      cases h with
      | compare hop hl hr => exact .compare hop hl.of_erase hr.of_erase
  | lit | var | missing => cases h

theorem Stmt.AreWellFormed.of_erase {block : List Stmt}
    (h : Stmt.AreWellFormed (Stmt.eraseAll block)) : Stmt.AreWellFormed block := by
  induction block using Stmt.block_induction with
  | nil => exact .nil
  | assign pos name value rest ih =>
      cases h with
      | assign hname hvalue hrest => exact .assign hname hvalue.of_erase (ih hrest)
  | loop pos cond body rest ihBody ihRest =>
      cases h with
      | loop hcond hbody hrest => exact .loop hcond.of_erase (ihBody hbody) (ihRest hrest)
  | branch pos cond onTrue onFalse rest ihTrue ihFalse ihRest =>
      cases h with
      | branch hcond hT hF hrest =>
          exact .branch hcond.of_erase (ihTrue hT) (ihFalse hF) (ihRest hrest)
  | missing rest ih => cases h

theorem Program.WellFormed.of_erase {p : Program} (h : p.erase.WellFormed) : p.WellFormed := by
  refine ⟨fun d hd => ?_, h.stmts.of_erase⟩
  obtain ⟨hty, hsome, hnames⟩ := h.decls d.erase (List.mem_map_of_mem hd)
  exact ⟨hty, hsome, hnames⟩

end ThreeAddress
