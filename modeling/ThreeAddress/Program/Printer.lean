import ThreeAddress.Program.Basic

/-!
# Printing programs

The canonical source text of a program: one statement a line, a tab for each
level of nesting, blanks around operators. Parentheses appear only where the
shape of the tree differs from what precedence and left association would
give.

Everything is added to the end of a text at hand, so that programs can be
printed one behind the other.

A tree with a defect has no source text. The error names the first defect in
reading order (an operator before its operands) and the way to it from the
root.
-/

namespace ThreeAddress

/-- A step on the way from the root of a tree to a node. -/
inductive Site where
  | program
  | assignment (name : String)
  | condition (clause : Clause)
  | loopBody
  | thenBlock
  | elseBlock
  | left
  | right
  deriving DecidableEq, Repr

def Site.label : Site → String
  | .program => "program"
  | .assignment n => "assignment " ++ n
  | .condition c => c.word ++ " cond"
  | .loopBody => "while body"
  | .thenBlock => "then block"
  | .elseBlock => "else block"
  | .left => "left"
  | .right => "right"

/-- A defect that keeps a tree from being printed, and the way to it. -/
structure FormatError where
  path : List Site
  defect : Defect
  deriving DecidableEq, Repr

namespace FormatError

/-- What the printer says of a defect. -/
def reason : Defect → String
  | .operator op => "unsupported operator: " ++ op.symbol
  | .missingExpr => "unsupported expr: <nil>"
  | .missingStmt => "unsupported stmt: <nil>"

def message (e : FormatError) : String :=
  e.path.foldr (fun site inner => site.label ++ ": " ++ inner) (reason e.defect)

end FormatError

namespace Printer

/-- The text with more at its end, or the defect that prevents it. -/
abbrev Printed := Except FormatError String

/-- Puts a step in front of the way to a defect. -/
def within (site : Site) : Printed → Printed
  | .ok s => .ok s
  | .error e => .error { e with path := site :: e.path }

/-- Adds an expression where operators that bind less tightly than `level` need
parentheses. No operator of the language binds as loosely as 0. -/
def expr (level : Nat) : Expr → String → Printed
  | .var _ name, text => .ok (text ++ name)
  | .lit _ digits, text => .ok (text ++ digits)
  | .missing, _ => .error ⟨[], .missingExpr⟩
  | .bin _ op l r, text =>
    if op.prec = 0 then .error ⟨[], .operator op⟩
    else do
      let text := text ++ (if op.prec < level then "(" else "")
      let text ← within .left (expr op.prec l text)
      let text := text ++ (" " ++ op.symbol ++ " ")
      let text ← within .right (expr (op.prec + 1) r text)
      return text ++ (if op.prec < level then ")" else "")

/-- The white space in front of a line. -/
def indent (depth : Nat) : String := String.ofList (List.replicate depth '\t')

/-- Adds the line that opens a loop or a branch. -/
def heading (depth : Nat) (clause : Clause) (cond : Expr) (text : String) : Printed := do
  let text := text ++ (indent depth ++ clause.word ++ " (")
  let text ← within (.condition clause) (expr 0 cond text)
  return text ++ ") \x7b\n"

/-- The line that ends a block. -/
def closing (depth : Nat) : String := indent depth ++ "\x7d\n"

/-- The line between the two blocks of a branch. -/
def otherwise (depth : Nat) : String := indent depth ++ "\x7d else \x7b\n"

mutual

/-- Adds a statement, in lines of its own. -/
def stmt (depth : Nat) : Stmt → String → Printed
  | .assign _ name value, text => do
    let text := text ++ (indent depth ++ name ++ " = ")
    let text ← within (.assignment name) (expr 0 value text)
    return text ++ ";\n"
  | .loop _ cond body, text => do
    let text ← heading depth .loop cond text
    let text ← within .loopBody (block (depth + 1) body text)
    return text ++ closing depth
  | .branch _ cond onTrue onFalse, text => do
    let text ← heading depth .branch cond text
    let text ← within .thenBlock (block (depth + 1) onTrue text)
    if onFalse.isEmpty then
      return text ++ closing depth
    else
      let text := text ++ otherwise depth
      let text ← within .elseBlock (block (depth + 1) onFalse text)
      return text ++ closing depth
  | .missing, _ => .error ⟨[], .missingStmt⟩

/-- Adds statements one after the other. -/
def block (depth : Nat) : List Stmt → String → Printed
  | [], text => .ok text
  | s :: ss, text => do
    let text ← stmt depth s text
    block depth ss text

end

def decl (d : Decl) : String :=
  indent 1 ++ d.ty.name ++ " " ++ String.intercalate ", " d.names ++ ";\n"

/-- Adds the declarations, set off by an empty line from statements that follow. -/
def preamble (p : Program) (text : String) : String :=
  if p.decls.isEmpty then text
  else
    let text := p.decls.foldl (fun text d => text ++ decl d) (text ++ "var\n")
    if p.stmts.isEmpty then text else text ++ "\n"

end Printer

/-- Adds the canonical source text of a program to the end of a text. -/
def Program.formatOnto (text : String) (p : Program) : Except FormatError String :=
  Printer.within .program (Printer.block 0 p.stmts (Printer.preamble p text))

end ThreeAddress
