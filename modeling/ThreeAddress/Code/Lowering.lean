import ThreeAddress.Code.Basic
import ThreeAddress.Text.Quoted

/-!
# From programs to code

Lowering walks the tree once, left to right. Every operator gets a temporary
of its own, every loop and every branch two labels; numbers are handed out in
the order of the walk, and the counters pass from node to node explicitly.

Temporaries are named by a stem and a number. A number is skipped if the
program itself uses the name it would make, so a temporary never shadows a
name of the program. A stem that could make the name of a label is refused
before the walk begins.
-/

namespace ThreeAddress

/-! ## Options -/

/-- How lowering names things, and whether it keeps declarations. -/
structure LowerOptions where
  /-- What the names of temporaries start with. -/
  tempStem : String := "t"
  /-- Names labels after their purpose instead of numbering them through. -/
  namedLabels : Bool := false
  /-- Leaves declarations out. -/
  noDecls : Bool := false
  deriving DecidableEq, Repr

/-- A single wish about the options. -/
inductive Setting where
  | tempStem (stem : String)
  | namedLabels
  | noDecls
  deriving DecidableEq, Repr

namespace LowerOptions

def apply (o : LowerOptions) : Setting → LowerOptions
  | .tempStem s => { o with tempStem := s }
  | .namedLabels => { o with namedLabels := true }
  | .noDecls => { o with noDecls := true }

/-- The defaults changed by each setting in turn; later ones win. -/
def ofSettings (settings : List Setting) : LowerOptions := settings.foldl apply {}

end LowerOptions

/-! ## Labels -/

/-- What a label is for. -/
inductive Purpose where
  /-- The start of a loop. -/
  | loop
  /-- The else part of a branch. -/
  | otherwise
  /-- The end of either. -/
  | finish
  deriving DecidableEq, Repr

def Purpose.word : Purpose → String
  | .loop => "WHILE"
  | .otherwise => "ELSE"
  | .finish => "END"

/-- What the names of all labels start with when they are numbered through. -/
def plainLabel : String := "L"

/-- What the names of labels start with. -/
def labelWords (named : Bool) : List String :=
  if named then [Purpose.loop, .otherwise, .finish].map Purpose.word else [plainLabel]

/-! ## Errors -/

/-- Why a program cannot be lowered. -/
inductive LowerError where
  | emptyTempStem
  /-- Temporaries would be named like the labels that start with `word`. -/
  | tempStemCollides (stem word : String)
  | defect (d : Defect)
  deriving DecidableEq, Repr

namespace LowerError

/-- What lowering says of a defect. -/
def reason : Defect → String
  | .operator op => "unknown operator: " ++ op.symbol
  | .missingExpr | .missingStmt => "unsupported node: <nil>"

def message : LowerError → String
  | .emptyTempStem => "empty temp prefix"
  | .tempStemCollides stem word =>
    "temp prefix " ++ Quoted.quote stem ++ " collides with label names " ++ word ++ "<N>"
  | .defect d => reason d

end LowerError

/-- Whether `stem` is `word` followed by nothing but digits. -/
def extendsByDigits (word stem : String) : Bool :=
  word.toList.isPrefixOf stem.toList && (stem.toList.drop word.length).all Char.isDigit

/-- Refuses a stem that could make the name of a label. -/
def LowerOptions.check (o : LowerOptions) : Except LowerError Unit :=
  if o.tempStem = "" then .error .emptyTempStem
  else
    match (labelWords o.namedLabels).find? (extendsByDigits · o.tempStem) with
    | some word => .error (.tempStemCollides o.tempStem word)
    | none => .ok ()

namespace Lowering

/-! ## Fresh names -/

/-- The least number from `n` up that makes no name in `taken` after the
stem. A name once met cannot come up again, so each step leaves fewer. -/
def firstFree (stem : String) (taken : List String) (n : Nat) : Nat :=
  if stem ++ toString n ∈ taken then
    firstFree stem (taken.erase (stem ++ toString n)) (n + 1)
  else n
termination_by taken.length
decreasing_by
  rw [List.length_erase_of_mem ‹_›]
  exact Nat.sub_lt (List.length_pos_of_mem ‹_›) Nat.one_pos

/-- What stays the same throughout a walk. -/
structure Scope where
  stem : String
  namedLabels : Bool
  /-- The names of the program. -/
  taken : List String
  deriving Repr

/-- What has been handed out so far. -/
structure Counters where
  /-- Temporaries. -/
  temps : Nat := 0
  /-- The next number to try for the name of a temporary. -/
  serial : Nat := 0
  /-- Labels. -/
  labels : Nat := 0
  /-- Labels at the start of a loop. -/
  loops : Nat := 0
  /-- Labels at an else part. -/
  otherwises : Nat := 0
  /-- Labels at the end of a loop or a branch. -/
  finishes : Nat := 0
  deriving DecidableEq, Repr

namespace Counters

/-- How many labels of one purpose there are. -/
def count (c : Counters) : Purpose → Nat
  | .loop => c.loops
  | .otherwise => c.otherwises
  | .finish => c.finishes

/-- One label more. -/
def withLabel (c : Counters) : Purpose → Counters
  | .loop => { c with labels := c.labels + 1, loops := c.loops + 1 }
  | .otherwise => { c with labels := c.labels + 1, otherwises := c.otherwises + 1 }
  | .finish => { c with labels := c.labels + 1, finishes := c.finishes + 1 }

end Counters

namespace Scope

/-- A new temporary. -/
def temp (s : Scope) (c : Counters) : Temp × Counters :=
  let n := firstFree s.stem s.taken c.serial
  (⟨c.temps, s.stem ++ toString n⟩, { c with temps := c.temps + 1, serial := n + 1 })

/-- A new label. Labels numbered through count from 0, labels named after
their purpose from 1 for each purpose. -/
def label (s : Scope) (purpose : Purpose) (c : Counters) : Label × Counters :=
  let after := c.withLabel purpose
  let name :=
    if s.namedLabels then purpose.word ++ toString (after.count purpose)
    else plainLabel ++ toString c.labels
  (⟨c.labels, name⟩, after)

end Scope

/-! ## The walk -/

/-- Code for an expression, and the operand that holds its value then. -/
def expr (s : Scope) : Expr → Counters → Except Defect (Code × Operand × Counters)
  | .lit _ text, c => .ok ([], .lit text, c)
  | .var _ name, c => .ok ([], .var name, c)
  | .missing, _ => .error .missingExpr
  | .bin _ op l r, c =>
    if op.isValid then do
      let (codeL, left, c) ← expr s l c
      let (codeR, right, c) ← expr s r c
      let (t, c) := s.temp c
      return (codeL ++ codeR ++ [.binop t op left right], .temp t, c)
    else .error (.operator op)

mutual

/-- Code for a statement. -/
def stmt (s : Scope) : Stmt → Counters → Except Defect (Code × Counters)
  | .assign _ name value, c => do
    let (code, x, c) ← expr s value c
    return (code ++ [.copy name x], c)
  | .loop _ cond body, c => do
    let (start, c) := s.label .loop c
    let (finish, c) := s.label .finish c
    let (test, x, c) ← expr s cond c
    let (inner, c) ← block s body c
    return ([.mark start] ++ test ++ [.ifFalse x finish] ++ inner ++
      [.goto start, .mark finish], c)
  | .branch _ cond onTrue onFalse, c => do
    let (otherwise, c) := s.label .otherwise c
    let (finish, c) := s.label .finish c
    let (test, x, c) ← expr s cond c
    let (yes, c) ← block s onTrue c
    let (no, c) ← block s onFalse c
    return (test ++ [.ifFalse x otherwise] ++ yes ++ [.goto finish, .mark otherwise] ++ no ++
      [.mark finish], c)
  | .missing, _ => .error .missingStmt

/-- Code for statements one after the other. -/
def block (s : Scope) : List Stmt → Counters → Except Defect (Code × Counters)
  | [], c => .ok ([], c)
  | x :: xs, c => do
    let (first, c) ← stmt s x c
    let (more, c) ← block s xs c
    return (first ++ more, c)

end

/-- One line for each name declared. -/
def decls (ds : List Decl) : Code :=
  ds.flatMap fun d => d.names.map (.decl d.ty)

end Lowering

/-- Code with the numbers of temporaries and labels it uses. -/
structure Lowered where
  code : Code
  temps : Nat
  labels : Nat
  deriving DecidableEq, Repr

/-- The code of a program. -/
def Program.lower (o : LowerOptions) (p : Program) : Except LowerError Lowered := do
  o.check
  let scope : Lowering.Scope := ⟨o.tempStem, o.namedLabels, p.names⟩
  let (body, c) ← (Lowering.block scope p.stmts {}).mapError .defect
  let head := if o.noDecls then [] else Lowering.decls p.decls
  return ⟨head ++ body, c.temps, c.labels⟩

end ThreeAddress
