import ThreeAddress.Program.Basic

/-!
# Three-address code

A list of instructions, each with at most one operator. Temporaries and labels
have a number, by which instructions refer to them, and a name, by which they
are printed. Code put together by hand may have holes (`missing`) and any
numbers.
-/

namespace ThreeAddress

/-- A temporary, which holds the value of one operator. -/
structure Temp where
  id : Int
  name : String
  deriving DecidableEq, Repr

/-- A label, which jumps go to. -/
structure Label where
  id : Int
  name : String
  deriving DecidableEq, Repr

/-- What an instruction reads. -/
inductive Operand where
  | temp (t : Temp)
  | var (name : String)
  | lit (text : String)
  /-- A hole: no operand stands here. -/
  | missing
  deriving DecidableEq, Repr

def Operand.text : Operand → String
  | .temp t => t.name
  | .var n => n
  | .lit s => s
  | .missing => "<nil>"

/-- Instructions. -/
inductive Instr where
  | decl (ty : Ty) (name : String)
  | copy (dst : String) (src : Operand)
  | binop (dst : Temp) (op : Op) (left right : Operand)
  /-- The place a label names. -/
  | mark (label : Label)
  | goto (label : Label)
  /-- Jumps if the condition is zero. -/
  | ifFalse (cond : Operand) (label : Label)
  /-- A hole: no instruction stands here. -/
  | missing
  deriving DecidableEq, Repr

/-- The line of an instruction, without its end. -/
def Instr.line : Instr → String
  | .decl ty name => ty.name ++ " " ++ name ++ ";"
  | .copy dst src => dst ++ " = " ++ src.text ++ ";"
  | .binop dst op l r => dst.name ++ " = " ++ l.text ++ " " ++ op.symbol ++ " " ++ r.text ++ ";"
  | .mark l => l.name ++ ":"
  | .goto l => "goto " ++ l.name ++ ";"
  | .ifFalse c l => "if " ++ c.text ++ " == 0 goto " ++ l.name ++ ";"
  | .missing => "<nil>"

/-- Code is a list of instructions. -/
abbrev Code := List Instr

namespace Code

/-- The lines of the code. -/
def lines (code : Code) : List String := code.map Instr.line

/-- Adds the printed code, one instruction a line, to the end of a text. -/
def listingOnto (text : String) (code : Code) : String :=
  code.foldl (fun text x => text ++ x.line ++ "\n") text

/-- The printed code. -/
def listing (code : Code) : String := code.listingOnto ""

end Code

end ThreeAddress
