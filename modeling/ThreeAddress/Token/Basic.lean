import ThreeAddress.Text.Location

/-!
# Tokens

Kinds of tokens, their names and their byte codes. The name of a keyword or a
symbol is its spelling, so the lexer's tables are read off the names.
-/

namespace ThreeAddress

/-- The kinds of tokens. A kind is one byte; bytes past the listed kinds name
no kind of the language and are kept as they are. -/
inductive Kind where
  | eof | ident | number
  | keyVar | keyInt | keyReal | keyWhile | keyIf | keyElse
  | semicolon | comma
  | assign | plus | minus | star | slash | caret
  | less | greater | lessEq | greaterEq | equal | notEqual
  | lparen | rparen | lbrace | rbrace
  | other (code : UInt8) (unlisted : 27 ≤ code)
  deriving DecidableEq, Repr

namespace Kind

instance : Inhabited Kind := ⟨.eof⟩

/-- The listed kinds in the order of their codes. -/
def listed : List Kind :=
  [.eof, .ident, .number,
   .keyVar, .keyInt, .keyReal, .keyWhile, .keyIf, .keyElse,
   .semicolon, .comma,
   .assign, .plus, .minus, .star, .slash, .caret,
   .less, .greater, .lessEq, .greaterEq, .equal, .notEqual,
   .lparen, .rparen, .lbrace, .rbrace]

/-- The kind with the given code. -/
def ofCode (code : UInt8) : Kind :=
  if h : code < 27 then listed.get ⟨code.toNat, UInt8.lt_iff_toNat_lt.1 h⟩
  else .other code (UInt8.not_lt.1 h)

/-- The code of a kind. -/
def code : Kind → UInt8
  | .eof => 0
  | .ident => 1
  | .number => 2
  | .keyVar => 3
  | .keyInt => 4
  | .keyReal => 5
  | .keyWhile => 6
  | .keyIf => 7
  | .keyElse => 8
  | .semicolon => 9
  | .comma => 10
  | .assign => 11
  | .plus => 12
  | .minus => 13
  | .star => 14
  | .slash => 15
  | .caret => 16
  | .less => 17
  | .greater => 18
  | .lessEq => 19
  | .greaterEq => 20
  | .equal => 21
  | .notEqual => 22
  | .lparen => 23
  | .rparen => 24
  | .lbrace => 25
  | .rbrace => 26
  | .other c _ => c

theorem ofCode_code (k : Kind) : ofCode k.code = k := by
  cases k with
  | other c h => simp [ofCode, code, UInt8.not_lt.2 h]
  | _ => rfl

/-- How a kind is called; for keywords and symbols, how they are spelled. -/
def name : Kind → String
  | .eof => "EOF"
  | .ident => "identifier"
  | .number => "number"
  | .keyVar => "var"
  | .keyInt => "int"
  | .keyReal => "real"
  | .keyWhile => "while"
  | .keyIf => "if"
  | .keyElse => "else"
  | .semicolon => ";"
  | .comma => ","
  | .assign => "="
  | .plus => "+"
  | .minus => "-"
  | .star => "*"
  | .slash => "/"
  | .caret => "^"
  | .less => "<"
  | .greater => ">"
  | .lessEq => "<="
  | .greaterEq => ">="
  | .equal => "=="
  | .notEqual => "!="
  | .lparen => "("
  | .rparen => ")"
  | .lbrace => "\x7b"
  | .rbrace => "\x7d"
  | .other c _ => "Kind(" ++ toString c.toNat ++ ")"

def keywords : List Kind := [.keyVar, .keyInt, .keyReal, .keyWhile, .keyIf, .keyElse]

def isKeyword (k : Kind) : Bool := keywords.contains k

/-- The kind of a whole word: a keyword if it is spelled like one. -/
def ofWord (word : String) : Kind :=
  (keywords.find? (·.name == word)).getD .ident

theorem ofWord_ne_eof (word : String) : ofWord word ≠ .eof := by
  have hk : ∀ k ∈ keywords, k ≠ .eof := by decide
  unfold ofWord
  cases hf : keywords.find? (·.name == word) with
  | none => simp
  | some k => simpa using hk k (List.mem_of_find?_eq_some hf)

/-- The symbols, longer ones first, so that the first that fits is the longest
that fits. -/
def symbols : List Kind :=
  [.lessEq, .greaterEq, .equal, .notEqual,
   .semicolon, .comma, .assign, .plus, .minus, .star, .slash, .caret,
   .less, .greater, .lparen, .rparen, .lbrace, .rbrace]

end Kind

/-- A token: its kind, the text it was read from and where it stands. -/
structure Token where
  kind : Kind
  text : String
  loc : Location
  deriving DecidableEq, Repr, Inhabited

namespace Token

/-- The end of input of a token list that brings none of its own. -/
def endOfInput : Token := ⟨.eof, "", .none⟩

/-- A token as people read it: kind, then the text in parentheses. -/
def describe (t : Token) : String := t.kind.name ++ " (" ++ t.text ++ ")"

end Token

end ThreeAddress
