import ThreeAddress.Proofs.Grammar.Blame

/-!
# Walking over tokens

The parser as a walk over the tokens by position, with nothing made safe in
advance. A look at the token of a position fails if there is none; a declaration
fails if no type stands where it was told one would; and nothing holds a procedure
back from calling itself or another where it stands. All that limits the calls is a
depth given from outside: a walk that goes deeper than that fails. One that would
never end is too deep at any depth.

A walk writes down what it does: where it looks and where it moves to, and of each
round of a loop and each way into a block or a parenthesis, from which position to
which it went. The end of input is looked at and not moved past.
-/

namespace ThreeAddress

namespace Walk

/-- What a walk does on its way. -/
inductive Event where
  /-- The token at a position is looked at. -/
  | look (i : Nat)
  /-- The walk moves on to a position. -/
  | move (i : Nat)
  /-- A round of a loop comes to its end. One that breaks off ends the walk. -/
  | round (start stop : Nat)
  /-- A block or a parenthesis that began at `start` is entered. -/
  | descent (start inside : Nat)
  deriving DecidableEq, Repr

/-- Why a walk breaks off. -/
inductive Halt where
  | syntaxError (e : SyntaxError)
  /-- There is no token at the position. -/
  | outside (i : Nat)
  /-- A declaration begins with a token that is no type. -/
  | noType (t : Token)
  /-- The calls and rounds are nested deeper than was allowed. -/
  | tooDeep
  deriving DecidableEq, Repr

/-- A walk in the middle: all tokens, the position it has come to, and what it did so
far. -/
structure State where
  tokens : List Token
  pos : Nat
  trace : List Event

end Walk

/-- A walk that returns an `α`. -/
abbrev Walk (α : Type) := ExceptT Walk.Halt (StateM Walk.State) α

namespace Walk

open ThreeAddress.Parser (Tier tyOf? comparison?)

/-! ## Steps -/

def record (e : Event) : Walk Unit := modify fun s => { s with trace := s.trace ++ [e] }

def here : Walk Nat := return (← get).pos

/-- The token at the position. -/
def look : Walk Token := do
  let s ← get
  match s.tokens[s.pos]? with
  | none => throw (.outside s.pos)
  | some t =>
    record (.look s.pos)
    return t

def move (i : Nat) : Walk Unit := do
  modify fun s => { s with pos := i }
  record (.move i)

/-- Takes the token at the position, unless it is the end of input, which stays. -/
def next : Walk Token := do
  let t ← look
  if t.kind ≠ .eof then move ((← here) + 1)
  return t

def sees (kind : Kind) : Walk Bool := return (← look).kind = kind

/-- Takes a token of the given kind if one comes next. -/
def accept (kind : Kind) : Walk Bool := do
  if ← sees kind then
    let _ ← next
    return true
  else return false

/-- Breaks off, with the token at the position to blame. -/
def blame {α : Type} (reason : Reason) : Walk α := do
  throw (.syntaxError ⟨reason, ← look⟩)

/-- Takes a token of the given kind, which has to come next. -/
def expect (kind : Kind) (reason : Reason) : Walk Token := do
  if ← sees kind then next else blame reason

def endRound (start : Nat) : Walk Unit := do record (.round start (← here))

def descend (start : Nat) : Walk Unit := do record (.descent start (← here))

/-! ## Declarations -/

/-- One name or more, with commas between them. -/
def names : Nat → Ty → Walk (List String)
  | 0, _ => throw .tooDeep
  | depth + 1, ty => do
    let start ← here
    let name ← expect .ident (.declaredName ty)
    let goesOn ← accept .comma
    endRound start
    if goesOn then
      let more ← names depth ty
      return name.text :: more
    else return [name.text]

/-- A declaration. It is only asked for where a type stands. -/
def declaration (depth : Nat) : Walk Decl := do
  let t ← next
  match tyOf? t.kind with
  | none => throw (.noType t)
  | some ty =>
    let declared ← names depth ty
    let _ ← expect .semicolon .declarationEnd
    return ⟨t.loc.offset, ty, declared⟩

/-- Declarations as long as a type comes next. -/
def declarations : Nat → Walk (List Decl)
  | 0 => throw .tooDeep
  | depth + 1 => do
    let start ← here
    if ← sees .keyInt <||> sees .keyReal then
      let d ← declaration depth
      endRound start
      let more ← declarations depth
      return d :: more
    else return []

/-! ## Expressions -/

mutual

/-- A name, a number, or an expression in parentheses. -/
def factor : Nat → Walk Expr
  | 0 => throw .tooDeep
  | depth + 1 => do
    let start ← here
    let t ← look
    match t.kind with
    | .ident =>
      let _ ← next
      return .var t.loc.offset t.text
    | .number =>
      let _ ← next
      return .lit t.loc.offset t.text
    | .lparen =>
      let _ ← next
      descend start
      let inner ← chain depth .sum
      let _ ← expect .rparen .groupEnd
      return inner
    | _ => blame .expression

/-- What the operators of a tier join. -/
def operand : Nat → Tier → Walk Expr
  | 0, _ => throw .tooDeep
  | depth + 1, .sum => chain depth .product
  | depth + 1, .product => factor depth

/-- Operands joined by the operators of a tier. -/
def chain : Nat → Tier → Walk Expr
  | 0, _ => throw .tooDeep
  | depth + 1, tier => do
    let first ← operand depth tier
    joined depth tier first

/-- Joins further operands to `left`, one after the other. -/
def joined : Nat → Tier → Expr → Walk Expr
  | 0, _, _ => throw .tooDeep
  | depth + 1, tier, left => do
    let start ← here
    let t ← look
    match tier.op? t.kind with
    | none => return left
    | some op =>
      let _ ← next
      let right ← operand depth tier
      endRound start
      joined depth tier (.bin left.pos op left right)

end

/-- Two expressions and one comparison between them. -/
def relation (depth : Nat) : Walk Expr := do
  let left ← chain depth .sum
  let t ← look
  match comparison? t.kind with
  | none => blame .comparison
  | some op =>
    let _ ← next
    let right ← chain depth .sum
    return .bin left.pos op left right

/-- The condition of a clause, in parentheses. -/
def condition (depth : Nat) (clause : Clause) : Walk Expr := do
  let start ← here
  let _ ← expect .lparen (.conditionStart clause)
  descend start
  let cond ← relation depth
  let _ ← expect .rparen (.conditionEnd clause)
  return cond

/-! ## Statements -/

def assignment (depth : Nat) : Walk Stmt := do
  let name ← next
  let _ ← expect .assign (.assignSign name.text)
  let value ← chain depth .sum
  let _ ← expect .semicolon .assignmentEnd
  return .assign name.loc.offset name.text value

mutual

/-- One statement. -/
def statement : Nat → Walk Stmt
  | 0 => throw .tooDeep
  | depth + 1 => do
    let t ← look
    match t.kind with
    | .ident => assignment depth
    | .keyWhile =>
      let key ← next
      let cond ← condition depth .loop
      let body ← block depth .loop
      return .loop key.loc.offset cond body
    | .keyIf =>
      let key ← next
      let cond ← condition depth .branch
      let onTrue ← block depth .branch
      if ← accept .keyElse then
        let onFalse ← block depth .otherwise
        return .branch key.loc.offset cond onTrue onFalse
      else return .branch key.loc.offset cond onTrue []
    | _ => blame .statement

/-- Statements up to a closing brace or the end of input. -/
def statements : Nat → Walk (List Stmt)
  | 0 => throw .tooDeep
  | depth + 1 => do
    let start ← here
    if ← sees .rbrace <||> sees .eof then return []
    else
      let first ← statement depth
      endRound start
      let more ← statements depth
      return first :: more

/-- Statements in braces. -/
def block : Nat → Clause → Walk (List Stmt)
  | 0, _ => throw .tooDeep
  | depth + 1, clause => do
    let start ← here
    let _ ← expect .lbrace (.blockStart clause)
    descend start
    let body ← statements depth
    let _ ← expect .rbrace (.blockEnd clause)
    return body

end

/-! ## Programs -/

/-- The declarations at the head of a program, if it has any. -/
def preamble (depth : Nat) : Walk (List Decl) := do
  if ← accept .keyVar then declarations depth else return []

/-- A whole program, up to the end of input. -/
def program (depth : Nat) : Walk (List Decl × List Stmt) := do
  let decls ← preamble depth
  let stmts ← statements depth
  if ← sees .eof then return (decls, stmts)
  else
    let t ← look
    blame (.topLevel t.kind)

/-- The tree of a program, which starts where its first token does. -/
def tree (depth : Nat) : Walk Program := do
  let first ← look
  let p ← program depth
  return ⟨first.loc.offset, p.1, p.2⟩

/-- What a walk does from a state on. -/
def runFrom {α : Type} (s : State) (m : Walk α) : Except Halt α × State := m.run.run s

/-- The walk over the tokens, with an end of input behind them: how it ends, and what
it did. -/
def parse (depth : Nat) (ts : List Token) : Except Halt Program × List Event :=
  let (result, s) := runFrom ⟨closed ts, 0, []⟩ (tree depth)
  (result, s.trace)

end Walk

end ThreeAddress
