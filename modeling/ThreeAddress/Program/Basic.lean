/-!
# Programs

The tree of a program: declarations, then statements over binary expressions.
Every node carries the byte offset it was read at.

A tree put together by hand may have holes (`missing`) and operators outside
the language (`Op.other`); a tree that was parsed has neither. `Defect` names
these faults; whoever walks a tree reports the first one in its way.
-/

namespace ThreeAddress

/-- Binary operators. An operator is one byte; bytes outside the listed
operators are kept as they are. -/
inductive Op where
  | add | sub | mul | div | pow
  | lt | gt | le | ge | eq | ne
  | other (code : UInt8) (unlisted : code = 0 ∨ 11 < code)
  deriving DecidableEq, Repr

namespace Op

/-- The operators of the language in the order of their codes, which start
at 1. -/
def listed : List Op := [.add, .sub, .mul, .div, .pow, .lt, .gt, .le, .ge, .eq, .ne]

/-- The operator with the given code. -/
def ofCode (code : UInt8) : Op :=
  if h : code = 0 ∨ 11 < code then .other code h
  else listed.get ⟨code.toNat - 1, by
    simp only [not_or, UInt8.not_lt, UInt8.le_iff_toNat_le] at h
    have : code.toNat ≤ 11 := h.2
    simp only [listed, List.length_cons, List.length_nil]
    omega⟩

/-- The code of an operator. -/
def code : Op → UInt8
  | .add => 1
  | .sub => 2
  | .mul => 3
  | .div => 4
  | .pow => 5
  | .lt => 6
  | .gt => 7
  | .le => 8
  | .ge => 9
  | .eq => 10
  | .ne => 11
  | .other c _ => c

theorem ofCode_code (op : Op) : ofCode op.code = op := by
  cases op with
  | other c h => simp [ofCode, code, h]
  | _ => rfl

/-- How an operator is written. -/
def symbol : Op → String
  | .add => "+"
  | .sub => "-"
  | .mul => "*"
  | .div => "/"
  | .pow => "^"
  | .lt => "<"
  | .gt => ">"
  | .le => "<="
  | .ge => ">="
  | .eq => "=="
  | .ne => "!="
  | .other c _ => "Op(" ++ toString c.toNat ++ ")"

/-- Whether the operator belongs to the language. -/
def isValid : Op → Bool
  | .other .. => false
  | _ => true

/-- Whether the operator compares. -/
def isRelational : Op → Bool
  | .lt | .gt | .le | .ge | .eq | .ne => true
  | _ => false

/-- How tightly an operator binds; 0 for one outside the language. Powers bind
like products. -/
def prec (op : Op) : Nat :=
  if op.isRelational then 1
  else if op = .add ∨ op = .sub then 2
  else if op.isValid then 3
  else 0

/-- The operators that bind in no way are those outside the language. -/
theorem prec_eq_zero_iff {op : Op} : op.prec = 0 ↔ op.isValid = false := by
  cases op <;> simp [prec, isRelational, isValid]

end Op

/-- Types of declared names. A type is one byte; bytes outside the listed
types are kept as they are. -/
inductive Ty where
  | int | real
  | other (code : UInt8) (unlisted : code = 0 ∨ 2 < code)
  deriving DecidableEq, Repr

namespace Ty

/-- The type with the given code. -/
def ofCode (code : UInt8) : Ty :=
  if h : code = 0 ∨ 2 < code then .other code h
  else if code = 1 then .int else .real

/-- The code of a type. -/
def code : Ty → UInt8
  | .int => 1
  | .real => 2
  | .other c _ => c

theorem ofCode_code (t : Ty) : ofCode t.code = t := by
  cases t with
  | other c h => simp [ofCode, code, h]
  | _ => rfl

/-- How a type is written. -/
def name : Ty → String
  | .int => "int"
  | .real => "real"
  | .other c _ => "Type(" ++ toString c.toNat ++ ")"

end Ty

/-- Expressions. -/
inductive Expr where
  | bin (pos : Int) (op : Op) (left right : Expr)
  | lit (pos : Int) (text : String)
  | var (pos : Int) (name : String)
  /-- A hole: no expression stands here. -/
  | missing
  deriving DecidableEq, Repr, Inhabited

/-- The offset of an expression; a hole has none and counts as 0. -/
def Expr.pos : Expr → Int
  | .bin p .. | .lit p _ | .var p _ => p
  | .missing => 0

/-- Statements. -/
inductive Stmt where
  | assign (pos : Int) (name : String) (value : Expr)
  /-- Repeats the body while the condition holds. -/
  | loop (pos : Int) (cond : Expr) (body : List Stmt)
  /-- Runs one of two blocks; a branch without an else part has it empty. -/
  | branch (pos : Int) (cond : Expr) (onTrue onFalse : List Stmt)
  /-- A hole: no statement stands here. -/
  | missing
  deriving Repr, Inhabited

mutual

def Stmt.decEq : (s t : Stmt) → Decidable (s = t)
  | .assign p n e, .assign p' n' e' => decidable_of_iff (p = p' ∧ n = n' ∧ e = e') (by simp)
  | .loop p c b, .loop p' c' b' =>
    have := decEqAll b b'
    decidable_of_iff (p = p' ∧ c = c' ∧ b = b') (by simp)
  | .branch p c x y, .branch p' c' x' y' =>
    have := decEqAll x x'
    have := decEqAll y y'
    decidable_of_iff (p = p' ∧ c = c' ∧ x = x' ∧ y = y') (by simp)
  | .missing, .missing => isTrue rfl
  | .assign .., .loop .. | .assign .., .branch .. | .assign .., .missing
  | .loop .., .assign .. | .loop .., .branch .. | .loop .., .missing
  | .branch .., .assign .. | .branch .., .loop .. | .branch .., .missing
  | .missing, .assign .. | .missing, .loop .. | .missing, .branch .. => isFalse (by simp)

def Stmt.decEqAll : (ss ts : List Stmt) → Decidable (ss = ts)
  | [], [] => isTrue rfl
  | s :: ss, t :: ts =>
    have := decEq s t
    have := decEqAll ss ts
    decidable_of_iff (s = t ∧ ss = ts) (by simp)
  | [], _ :: _ | _ :: _, [] => isFalse (by simp)

end

instance : DecidableEq Stmt := Stmt.decEq

/-- A declaration of names of one type. -/
structure Decl where
  pos : Int
  ty : Ty
  names : List String
  deriving DecidableEq, Repr

/-- A program. -/
structure Program where
  pos : Int
  decls : List Decl
  stmts : List Stmt
  deriving DecidableEq, Repr

/-- What can be wrong with a tree. -/
inductive Defect where
  | operator (op : Op)
  | missingExpr
  | missingStmt
  deriving DecidableEq, Repr

/-- The parts of a statement that go by a word of their own. -/
inductive Clause where
  | loop | branch | otherwise
  deriving DecidableEq, Repr

def Clause.word : Clause → String
  | .loop => "while"
  | .branch => "if"
  | .otherwise => "else"

/-! ## Names -/

/-- The names an expression reads. -/
def Expr.names : Expr → List String
  | .bin _ _ l r => l.names ++ r.names
  | .var _ n => [n]
  | .lit .. | .missing => []

mutual

/-- The names a statement assigns or reads. -/
def Stmt.names : Stmt → List String
  | .assign _ n e => n :: e.names
  | .loop _ c body => c.names ++ Stmt.namesOf body
  | .branch _ c t e => c.names ++ (Stmt.namesOf t ++ Stmt.namesOf e)
  | .missing => []

/-- The names a block assigns or reads. -/
def Stmt.namesOf : List Stmt → List String
  | [] => []
  | s :: ss => s.names ++ Stmt.namesOf ss

end

/-- The names a program declares, assigns or reads. -/
def Program.names (p : Program) : List String :=
  p.decls.flatMap Decl.names ++ Stmt.namesOf p.stmts

end ThreeAddress
