import ThreeAddress.Program.Basic
import ThreeAddress.Text.Quoted
import ThreeAddress.Token.Basic

/-!
# Parsing

Recursive descent with one token of lookahead. A parser takes the tokens it
stands before and returns what it read with the tokens that are left; the
result type records how many tokens it took at least (`Parsed.consumed`), and
the recursion ends because the rest gets shorter. A parser that cannot go on
says why and keeps the tokens it is stuck at, the first of which is the one to
blame.

The input ends at the first end-of-input token. Operators of one level bind to
the left; powers share the level of products.
-/

namespace ThreeAddress

/-! ## Syntax errors -/

/-- Why a parser cannot go on. -/
inductive Reason where
  | declaredName (ty : Ty)
  | declarationEnd
  | statement
  | assignSign (name : String)
  | assignmentEnd
  | conditionStart (clause : Clause)
  | conditionEnd (clause : Clause)
  | blockStart (clause : Clause)
  | blockEnd (clause : Clause)
  | comparison
  | expression
  | groupEnd
  | topLevel (kind : Kind)
  deriving DecidableEq, Repr

def Reason.message : Reason → String
  | .declaredName ty => "identifier expected in " ++ ty.name ++ " declaration"
  | .declarationEnd => "';' expected after declaration"
  | .statement => "statement expected"
  | .assignSign name => "'=' expected after " ++ Quoted.quote name
  | .assignmentEnd => "';' expected after assignment"
  | .conditionStart c => "'(' expected after '" ++ c.word ++ "'"
  | .conditionEnd c => "')' expected after " ++ c.word ++ " condition"
  | .blockStart c => "'\x7b' expected before " ++ c.word ++ " block"
  | .blockEnd c => "'\x7d' expected after " ++ c.word ++ " block"
  | .comparison => "relational operator expected in condition"
  | .expression => "expression expected"
  | .groupEnd => "')' expected after expression"
  | .topLevel k => "unexpected " ++ k.name ++ " at top level"

/-- The first violation of the grammar: what was wrong and at which token. -/
structure SyntaxError where
  reason : Reason
  token : Token
  deriving DecidableEq, Repr

namespace SyntaxError

/-- The text to blame, empty at the end of input. -/
def lexeme (e : SyntaxError) : String := e.token.text

def message (e : SyntaxError) : String :=
  let place := toString e.token.loc.line ++ ":" ++ toString e.token.loc.col ++ ": "
  let got := if e.token.kind = .eof then "end of input" else Quoted.quote e.token.text
  place ++ e.reason.message ++ ", got " ++ got

end SyntaxError

/-! ## Parsers -/

namespace Parser

/-- A parser that cannot go on, and the tokens it stands before. -/
structure Stuck where
  reason : Reason
  rest : List Token
  deriving DecidableEq, Repr

/-- What was read from the front of `ts`, at least `least` tokens of it, and
the tokens that are left. -/
structure Parsed (α : Type) (least : Nat) (ts : List Token) where
  value : α
  rest : List Token
  consumed : rest.length + least ≤ ts.length

/-- The outcome of a parser that stands before `ts`. -/
abbrev Outcome (α : Type) (least : Nat) (ts : List Token) := Except Stuck (Parsed α least ts)

/-- Takes a token of the given kind if one comes next. -/
def accept? (kind : Kind) : (ts : List Token) → Option (Parsed Token 1 ts)
  | [] => none
  | t :: ts => if t.kind = kind then some ⟨t, ts, Nat.le_refl _⟩ else none

/-- Takes a token of the given kind, which has to come next. -/
def expect (kind : Kind) (reason : Reason) (ts : List Token) : Outcome Token 1 ts :=
  match accept? kind ts with
  | some p => .ok p
  | none => .error ⟨reason, ts⟩

/-! ### Declarations -/

/-- The type a keyword stands for. -/
def tyOf? : Kind → Option Ty
  | .keyInt => some .int
  | .keyReal => some .real
  | _ => none

/-- One name or more, with commas between them. -/
def names (ty : Ty) (ts : List Token) : Outcome (List String) 1 ts := do
  let name ← expect .ident (.declaredName ty) ts
  match accept? .comma name.rest with
  | none => return ⟨[name.value.text], name.rest, name.consumed⟩
  | some comma =>
    let more ← names ty comma.rest
    return ⟨name.value.text :: more.value, more.rest, by
      have := name.consumed
      have := comma.consumed
      have := more.consumed
      omega⟩
termination_by ts.length
decreasing_by
  have := name.consumed
  have := comma.consumed
  omega

/-- Declarations as long as a type comes next. -/
def declarations (ts : List Token) : Outcome (List Decl) 0 ts :=
  match ts with
  | [] => .ok ⟨[], [], Nat.le_refl _⟩
  | t :: rest =>
    match tyOf? t.kind with
    | none => .ok ⟨[], t :: rest, Nat.le_refl _⟩
    | some ty => do
      let declared ← names ty rest
      let semicolon ← expect .semicolon .declarationEnd declared.rest
      let more ← declarations semicolon.rest
      return ⟨⟨t.loc.offset, ty, declared.value⟩ :: more.value, more.rest, by
        have := declared.consumed
        have := semicolon.consumed
        have := more.consumed
        simp only [List.length_cons]
        omega⟩
termination_by ts.length
decreasing_by
  have := declared.consumed
  have := semicolon.consumed
  simp only [List.length_cons]
  omega

/-! ### Expressions -/

/-- The two levels of operators inside an expression. -/
inductive Tier where
  | sum | product
  deriving DecidableEq, Repr

/-- The operator of the tier that a kind stands for. -/
def Tier.op? : Tier → Kind → Option Op
  | .sum, .plus => some .add
  | .sum, .minus => some .sub
  | .product, .star => some .mul
  | .product, .slash => some .div
  | .product, .caret => some .pow
  | _, _ => none

/-- The comparison that a kind stands for. -/
def comparison? : Kind → Option Op
  | .less => some .lt
  | .greater => some .gt
  | .lessEq => some .le
  | .greaterEq => some .ge
  | .equal => some .eq
  | .notEqual => some .ne
  | _ => none

/-- How many steps down the grammar lie between a tier's operands and a
factor. -/
def Tier.depth : Tier → Nat
  | .sum => 3
  | .product => 1

/-- A token outweighs all steps down. -/
theorem Tier.depth_lt (tier : Tier) : tier.depth < 5 := by cases tier <;> decide

mutual

/-- A name, a number, or an expression in parentheses. -/
def factor (ts : List Token) : Outcome Expr 1 ts :=
  match ts with
  | [] => .error ⟨.expression, []⟩
  | t :: rest =>
    match t.kind with
    | .ident => .ok ⟨.var t.loc.offset t.text, rest, Nat.le_refl _⟩
    | .number => .ok ⟨.lit t.loc.offset t.text, rest, Nat.le_refl _⟩
    | .lparen => do
      let inner ← chain .sum rest
      let close ← expect .rparen .groupEnd inner.rest
      return ⟨inner.value, close.rest, by
        have := inner.consumed
        have := close.consumed
        simp only [List.length_cons]
        omega⟩
    | _ => .error ⟨.expression, t :: rest⟩
termination_by 5 * ts.length
decreasing_by
  simp only [Tier.depth, List.length_cons]
  omega

/-- What the operators of a tier join. -/
def operand (tier : Tier) (ts : List Token) : Outcome Expr 1 ts :=
  match tier with
  | .sum => chain .product ts
  | .product => factor ts
termination_by 5 * ts.length + tier.depth
decreasing_by
  · simp only [Tier.depth]
    omega
  · simp only [Tier.depth]
    omega

/-- Operands joined by the operators of a tier. -/
def chain (tier : Tier) (ts : List Token) : Outcome Expr 1 ts := do
  let first ← operand tier ts
  let whole ← joined tier first.value first.rest
  return ⟨whole.value, whole.rest, by
    have := first.consumed
    have := whole.consumed
    omega⟩
termination_by 5 * ts.length + tier.depth + 1
decreasing_by
  · omega
  · have := first.consumed
    omega

/-- Joins further operands to `left`, one after the other. The joint
expression starts where `left` does. -/
def joined (tier : Tier) (left : Expr) (ts : List Token) : Outcome Expr 0 ts :=
  match ts with
  | [] => .ok ⟨left, [], Nat.le_refl _⟩
  | t :: rest =>
    match tier.op? t.kind with
    | none => .ok ⟨left, t :: rest, Nat.le_refl _⟩
    | some op => do
      let right ← operand tier rest
      let whole ← joined tier (.bin left.pos op left right.value) right.rest
      return ⟨whole.value, whole.rest, by
        have := right.consumed
        have := whole.consumed
        simp only [List.length_cons]
        omega⟩
termination_by 5 * ts.length
decreasing_by
  · have := tier.depth_lt
    simp only [List.length_cons]
    omega
  · have := right.consumed
    simp only [List.length_cons]
    omega

end

/-- An expression without comparisons. -/
def expression (ts : List Token) : Outcome Expr 1 ts := chain .sum ts

/-- Two expressions and one comparison between them. -/
def relation (ts : List Token) : Outcome Expr 1 ts := do
  let left ← expression ts
  match h : left.rest with
  | [] => .error ⟨.comparison, []⟩
  | t :: rest =>
    match comparison? t.kind with
    | none => .error ⟨.comparison, t :: rest⟩
    | some op =>
      let right ← expression rest
      return ⟨.bin left.value.pos op left.value right.value, right.rest, by
        have := left.consumed
        have := right.consumed
        simp only [h, List.length_cons] at *
        omega⟩

/-- The condition of a clause, in parentheses. -/
def condition (clause : Clause) (ts : List Token) : Outcome Expr 1 ts := do
  let opening ← expect .lparen (.conditionStart clause) ts
  let cond ← relation opening.rest
  let close ← expect .rparen (.conditionEnd clause) cond.rest
  return ⟨cond.value, close.rest, by
    have := opening.consumed
    have := cond.consumed
    have := close.consumed
    omega⟩

/-! ### Statements -/

/-- The rest of an assignment to `name`. -/
def assignment (name : Token) (ts : List Token) : Outcome Stmt 1 ts := do
  let sign ← expect .assign (.assignSign name.text) ts
  let value ← expression sign.rest
  let semicolon ← expect .semicolon .assignmentEnd value.rest
  return ⟨.assign name.loc.offset name.text value.value, semicolon.rest, by
    have := sign.consumed
    have := value.consumed
    have := semicolon.consumed
    omega⟩

mutual

/-- One statement. -/
def statement (ts : List Token) : Outcome Stmt 1 ts :=
  match ts with
  | [] => .error ⟨.statement, []⟩
  | t :: rest =>
    match t.kind with
    | .ident => do
      let s ← assignment t rest
      return ⟨s.value, s.rest, by
        have := s.consumed
        simp only [List.length_cons]
        omega⟩
    | .keyWhile => do
      let cond ← condition .loop rest
      let body ← block .loop cond.rest
      return ⟨.loop t.loc.offset cond.value body.value, body.rest, by
        have := cond.consumed
        have := body.consumed
        simp only [List.length_cons]
        omega⟩
    | .keyIf => do
      let cond ← condition .branch rest
      let onTrue ← block .branch cond.rest
      match accept? .keyElse onTrue.rest with
      | none =>
        return ⟨.branch t.loc.offset cond.value onTrue.value [], onTrue.rest, by
          have := cond.consumed
          have := onTrue.consumed
          simp only [List.length_cons]
          omega⟩
      | some otherwise =>
        let onFalse ← block .otherwise otherwise.rest
        return ⟨.branch t.loc.offset cond.value onTrue.value onFalse.value, onFalse.rest, by
          have := cond.consumed
          have := onTrue.consumed
          have := otherwise.consumed
          have := onFalse.consumed
          simp only [List.length_cons]
          omega⟩
    | _ => .error ⟨.statement, t :: rest⟩
termination_by 2 * ts.length
decreasing_by
  · have := cond.consumed
    simp only [List.length_cons]
    omega
  · have := cond.consumed
    simp only [List.length_cons]
    omega
  · have := cond.consumed
    have := onTrue.consumed
    have := otherwise.consumed
    simp only [List.length_cons]
    omega

/-- Statements up to a closing brace or the end. -/
def statements (ts : List Token) : Outcome (List Stmt) 0 ts :=
  match ts with
  | [] => .ok ⟨[], [], Nat.le_refl _⟩
  | t :: rest =>
    if t.kind = .rbrace then .ok ⟨[], t :: rest, Nat.le_refl _⟩
    else do
      let first ← statement (t :: rest)
      let more ← statements first.rest
      return ⟨first.value :: more.value, more.rest, by
        have := first.consumed
        have := more.consumed
        omega⟩
termination_by 2 * ts.length + 1
decreasing_by
  · omega
  · have := first.consumed
    omega

/-- Statements in braces. -/
def block (clause : Clause) (ts : List Token) : Outcome (List Stmt) 1 ts := do
  let opening ← expect .lbrace (.blockStart clause) ts
  let body ← statements opening.rest
  let close ← expect .rbrace (.blockEnd clause) body.rest
  return ⟨body.value, close.rest, by
    have := opening.consumed
    have := body.consumed
    have := close.consumed
    omega⟩
termination_by 2 * ts.length
decreasing_by
  have := opening.consumed
  omega

end

/-! ### Programs -/

/-- The declarations a program starts with, if any, and what follows them. -/
def preamble (ts : List Token) : Except Stuck (List Decl × List Token) :=
  match accept? .keyVar ts with
  | none => .ok ([], ts)
  | some key => (declarations key.rest).map fun ds => (ds.value, ds.rest)

/-- A whole program: all tokens have to be used up. -/
def program (ts : List Token) : Except Stuck (List Decl × List Stmt) := do
  let (decls, rest) ← preamble ts
  let stmts ← statements rest
  match stmts.rest with
  | [] => return (decls, stmts.value)
  | t :: more => .error ⟨.topLevel t.kind, t :: more⟩

end Parser

/-- The tokens of the input proper: those before the first end of input. -/
def sentence (ts : List Token) : List Token := ts.takeWhile (·.kind ≠ .eof)

/-- The first end-of-input token, or the default one if there is none. -/
def terminator (ts : List Token) : Token :=
  (ts.find? (·.kind = .eof)).getD Token.endOfInput

/-- Reads a program from its tokens. -/
def parse (ts : List Token) : Except SyntaxError Program :=
  match Parser.program (sentence ts) with
  | .error stuck => .error ⟨stuck.reason, stuck.rest.headD (terminator ts)⟩
  | .ok (decls, stmts) =>
    .ok ⟨((sentence ts).headD (terminator ts)).loc.offset, decls, stmts⟩

end ThreeAddress
