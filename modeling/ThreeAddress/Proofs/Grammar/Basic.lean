import ThreeAddress.Program.Basic
import ThreeAddress.Token.Basic

/-!
# The grammar

The language as a set of rules, apart from any way to read it:

    Program   := ['var' {VarDecl}] {Stmt}
    VarDecl   := ('int' | 'real') Ident {',' Ident} ';'
    Stmt      := Ident '=' Expr ';'
               | 'while' '(' RelExpr ')' Block
               | 'if' '(' RelExpr ')' Block ['else' Block]
    Block     := '{' {Stmt} '}'
    RelExpr   := Expr RelOp Expr
    Expr      := Term {('+' | '-') Term}
    Term      := Factor {('*' | '/' | '^') Factor}
    Factor    := Ident | Number | '(' Expr ')'

Each rule relates the tokens of a phrase to its tree, all nodes of which stand
at offset 0. An operator joins one more operand to all that stands before it,
so the trees of repetitions lean to the left. A branch without an else part has
an empty one.
-/

namespace ThreeAddress.Grammar

/-! ## Words -/

inductive TypeWord : Kind → Ty → Prop
  | int : TypeWord .keyInt .int
  | real : TypeWord .keyReal .real

inductive SumOp : Kind → Op → Prop
  | plus : SumOp .plus .add
  | minus : SumOp .minus .sub

inductive ProductOp : Kind → Op → Prop
  | star : ProductOp .star .mul
  | slash : ProductOp .slash .div
  | caret : ProductOp .caret .pow

inductive RelOp : Kind → Op → Prop
  | less : RelOp .less .lt
  | greater : RelOp .greater .gt
  | lessEq : RelOp .lessEq .le
  | greaterEq : RelOp .greaterEq .ge
  | equal : RelOp .equal .eq
  | notEqual : RelOp .notEqual .ne

/-! ## Expressions -/

inductive Level where
  | expr | term | factor

/-- The tokens are an expression, a term or a factor. -/
inductive Phrase : Level → List Token → Expr → Prop
  | ident {t : Token} : t.kind = .ident → Phrase .factor [t] (.var 0 t.text)
  | number {t : Token} : t.kind = .number → Phrase .factor [t] (.lit 0 t.text)
  | group {opening closing : Token} {w : List Token} {x : Expr} : opening.kind = .lparen →
      Phrase .expr w x → closing.kind = .rparen →
      Phrase .factor (opening :: (w ++ [closing])) x
  | term {w : List Token} {x : Expr} : Phrase .factor w x → Phrase .term w x
  | product {t : Token} {op : Op} {w v : List Token} {x y : Expr} : Phrase .term w x →
      ProductOp t.kind op → Phrase .factor v y → Phrase .term (w ++ t :: v) (.bin 0 op x y)
  | expr {w : List Token} {x : Expr} : Phrase .term w x → Phrase .expr w x
  | sum {t : Token} {op : Op} {w v : List Token} {x y : Expr} : Phrase .expr w x →
      SumOp t.kind op → Phrase .term v y → Phrase .expr (w ++ t :: v) (.bin 0 op x y)

/-- The tokens are a comparison. -/
inductive Relation : List Token → Expr → Prop
  | compare {t : Token} {op : Op} {w v : List Token} {x y : Expr} : Phrase .expr w x →
      RelOp t.kind op → Phrase .expr v y → Relation (w ++ t :: v) (.bin 0 op x y)

/-! ## Statements -/

inductive Symbol where
  | stmt | stmts | block

/-- What the phrases of a symbol stand for. -/
abbrev Symbol.Tree : Symbol → Type
  | .stmt => Stmt
  | .stmts | .block => List Stmt

/-- The tokens are a statement, statements one after the other, or a block. -/
inductive Derives : (symbol : Symbol) → List Token → symbol.Tree → Prop
  | assign {name sign semicolon : Token} {w : List Token} {x : Expr} : name.kind = .ident →
      sign.kind = .assign → Phrase .expr w x → semicolon.kind = .semicolon →
      Derives .stmt (name :: sign :: (w ++ [semicolon])) (.assign 0 name.text x)
  | loop {key opening closing : Token} {w v : List Token} {x : Expr} {body : List Stmt} :
      key.kind = .keyWhile → opening.kind = .lparen → Relation w x → closing.kind = .rparen →
      Derives .block v body →
      Derives .stmt (key :: opening :: (w ++ closing :: v)) (.loop 0 x body)
  | branch {key opening closing : Token} {w v : List Token} {x : Expr} {onTrue : List Stmt} :
      key.kind = .keyIf → opening.kind = .lparen → Relation w x → closing.kind = .rparen →
      Derives .block v onTrue →
      Derives .stmt (key :: opening :: (w ++ closing :: v)) (.branch 0 x onTrue [])
  | branchElse {key opening closing otherwise : Token} {w v u : List Token} {x : Expr}
      {onTrue onFalse : List Stmt} : key.kind = .keyIf → opening.kind = .lparen →
      Relation w x → closing.kind = .rparen → Derives .block v onTrue →
      otherwise.kind = .keyElse → Derives .block u onFalse →
      Derives .stmt (key :: opening :: (w ++ closing :: (v ++ otherwise :: u)))
        (.branch 0 x onTrue onFalse)
  | nil : Derives .stmts [] []
  | cons {w v : List Token} {s : Stmt} {ss : List Stmt} : Derives .stmt w s →
      Derives .stmts v ss → Derives .stmts (w ++ v) (s :: ss)
  | block {opening closing : Token} {w : List Token} {ss : List Stmt} :
      opening.kind = .lbrace → Derives .stmts w ss → closing.kind = .rbrace →
      Derives .block (opening :: (w ++ [closing])) ss

/-! ## Programs -/

/-- The tokens are names with commas between them. -/
inductive Names : List Token → List String → Prop
  | one {t : Token} : t.kind = .ident → Names [t] [t.text]
  | more {t comma : Token} {w : List Token} {names : List String} : t.kind = .ident →
      comma.kind = .comma → Names w names → Names (t :: comma :: w) (t.text :: names)

/-- The tokens are declarations one after the other. -/
inductive Declarations : List Token → List Decl → Prop
  | nil : Declarations [] []
  | cons {t semicolon : Token} {ty : Ty} {w v : List Token} {names : List String}
      {ds : List Decl} : TypeWord t.kind ty → Names w names → semicolon.kind = .semicolon →
      Declarations v ds → Declarations (t :: (w ++ semicolon :: v)) (⟨0, ty, names⟩ :: ds)

/-- The tokens are a program. -/
inductive Sentence : List Token → Program → Prop
  | plain {w : List Token} {ss : List Stmt} : Derives .stmts w ss → Sentence w ⟨0, [], ss⟩
  | declared {key : Token} {w v : List Token} {ds : List Decl} {ss : List Stmt} :
      key.kind = .keyVar → Declarations w ds → Derives .stmts v ss →
      Sentence (key :: (w ++ v)) ⟨0, ds, ss⟩

end ThreeAddress.Grammar
