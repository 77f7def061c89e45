import ThreeAddress.Text.Utf8
import ThreeAddress.Token.Basic

/-!
# Lexing

`Cursor.next` skips blanks and reads the longest lexeme at the front of what
is left of the text. A character that starts no lexeme is skipped too, and
recorded as an `Anomaly`; it separates tokens as a blank does. The last token
is the end of input, and reading on from there yields it again.

A cursor carries the line it is on and where that line starts. Only passing a
blank looks for newlines (`Cursor.passBlank`); lexemes and anomalies move the
offset and nothing else.

Each token leaves a shorter text behind (`Cursor.next_shrinks`), which is why
reading all of them comes to an end.
-/

namespace ThreeAddress

/-- A character that starts no token. A byte that is no UTF-8 counts as one
replacement character. -/
structure Anomaly where
  char : Char
  loc : Location
  deriving DecidableEq, Repr

/-! ## Lexemes -/

/-- The spelling of each symbol. -/
def symbolSpellings : List (Kind × Bytes) :=
  Kind.symbols.map fun k => (k, Bytes.ofString k.name)

/-- The longest number at the front of the text: digits, and a point only
where more digits follow it. -/
def numeral (bs : Bytes) : Bytes :=
  let whole := bs.takeWhile isDigit
  match bs.dropWhile isDigit with
  | point :: rest =>
    if Char.ofUInt8 point = '.' ∧ rest.takeWhile isDigit ≠ [] then
      whole ++ point :: rest.takeWhile isDigit
    else whole
  | [] => whole

/-- The longest lexeme at the front of the text, with its kind. -/
def lexeme? (bs : Bytes) : Option (Kind × Bytes) :=
  match bs with
  | [] => none
  | b :: _ =>
    if isLetter b then
      let word := bs.takeWhile isWordByte
      some (Kind.ofWord (Bytes.ascii word), word)
    else if isDigit b then
      some (.number, numeral bs)
    else
      symbolSpellings.find? fun s => s.2.isPrefixOf bs

theorem numeral_ne_nil {b : UInt8} {bs : Bytes} (h : isDigit b) : numeral (b :: bs) ≠ [] := by
  unfold numeral
  simp only [List.takeWhile_cons, h, if_true]
  split
  · split <;> simp
  · simp

theorem symbolSpellings_ne_nil : ∀ s ∈ symbolSpellings, s.2 ≠ [] := by
  decide

/-- A lexeme is never empty. -/
theorem lexeme?_ne_nil {bs w : Bytes} {k : Kind} (h : lexeme? bs = some (k, w)) : w ≠ [] := by
  unfold lexeme? at h
  split at h
  · cases h
  · split at h
    · rename_i b _ hb
      cases h
      simp [isWordByte, hb]
    · split at h
      · rename_i hd
        cases h
        exact numeral_ne_nil hd
      · exact symbolSpellings_ne_nil _ (List.mem_of_find?_eq_some h)

/-- The kind of a lexeme is never the end of input. -/
theorem lexeme?_kind_ne_eof {bs w : Bytes} {k : Kind} (h : lexeme? bs = some (k, w)) :
    k ≠ .eof := by
  unfold lexeme? at h
  split at h
  · cases h
  · split at h
    · cases h
      exact Kind.ofWord_ne_eof _
    · split at h
      · cases h; decide
      · have hm := List.mem_of_find?_eq_some h
        have : ∀ s ∈ symbolSpellings, s.1 ≠ .eof := by decide
        exact this _ hm

/-! ## Reading tokens -/

/-- What is left of a text, the offset where it begins, the line it begins on and
the offset where that line starts. -/
structure Cursor where
  rest : Bytes
  offset : Int
  line : Int
  lineStart : Int
  deriving DecidableEq, Repr

/-- A token read, the anomalies skipped on the way to it, and the cursor after
it. -/
structure Scan where
  skipped : List Anomaly
  token : Token
  after : Cursor
  deriving Repr

/-- All tokens read, the anomalies skipped among them, and the cursor after
the last token. -/
structure Scans where
  skipped : List Anomaly
  tokens : List Token
  after : Cursor
  deriving Repr

namespace Cursor

/-- The front of a text. -/
def ofBytes (text : Bytes) : Cursor := ⟨text, 0, 1, 0⟩

/-- The place where the cursor stands. -/
def loc (c : Cursor) : Location := ⟨c.offset, c.line, c.offset - c.lineStart + 1⟩

/-- The cursor `n` bytes further on, on the same line. -/
def advance (c : Cursor) (n : Nat) : Cursor :=
  { c with rest := c.rest.drop n, offset := c.offset + n }

/-- The cursor behind the blank at its front. Behind a newline a line starts. -/
def passBlank (c : Cursor) (b : UInt8) : Cursor :=
  if b = newline then
    { c.advance 1 with line := c.line + 1, lineStart := c.offset + 1 }
  else c.advance 1

theorem rest_passBlank (c : Cursor) (b : UInt8) : (c.passBlank b).rest = c.rest.drop 1 := by
  unfold passBlank
  split <;> rfl

theorem drop_shrinks {bs : Bytes} {n : Nat} (hn : 0 < n) (hbs : bs ≠ []) :
    (bs.drop n).length < bs.length := by
  have := List.length_pos_iff.2 hbs
  rw [List.length_drop]
  omega

theorem advance_shrinks {c : Cursor} {n : Nat} (hn : 0 < n) (hc : c.rest ≠ []) :
    (c.advance n).rest.length < c.rest.length := drop_shrinks hn hc

theorem passBlank_shrinks {c : Cursor} (b : UInt8) (hc : c.rest ≠ []) :
    (c.passBlank b).rest.length < c.rest.length := by
  rw [rest_passBlank]
  exact drop_shrinks Nat.one_pos hc

/-- The next token. At the end of the text this is the end of input, however
often it is asked for. -/
def next (c : Cursor) : Scan :=
  match _ : c.rest with
  | [] => ⟨[], ⟨.eof, "", c.loc⟩, c⟩
  | b :: bs =>
    if isBlank b then
      next (c.passBlank b)
    else
      match lexeme? (b :: bs) with
      | some (kind, word) => ⟨[], ⟨kind, Bytes.ascii word, c.loc⟩, c.advance word.length⟩
      | none =>
        let char := Utf8.front (b :: bs)
        let s := next (c.advance char.2)
        { s with skipped := ⟨char.1, c.loc⟩ :: s.skipped }
termination_by c.rest.length
decreasing_by
  · exact passBlank_shrinks _ (by simp [*])
  · exact advance_shrinks (Utf8.front_width_pos _) (by simp [*])

/-- Every token but the end of input takes something off the text. -/
theorem next_shrinks {c : Cursor} (h : c.next.token.kind ≠ .eof) :
    c.next.after.rest.length < c.rest.length := by
  fun_induction next c with
  | case1 c => exact absurd rfl h
  | case2 c b bs hc hb ih =>
    exact Nat.lt_trans (ih h) (passBlank_shrinks b (by simp [hc]))
  | case3 c b bs hc hb kind word hw =>
    exact advance_shrinks (List.length_pos_iff.2 (lexeme?_ne_nil hw)) (by simp [hc])
  | case4 c b bs hc hb hw char s ih =>
    exact Nat.lt_trans (ih h) (advance_shrinks (Utf8.front_width_pos _) (by simp [hc]))

/-- The tokens up to and including the end of input. -/
def all (c : Cursor) : Scans :=
  let s := c.next
  if _ : s.token.kind = .eof then
    ⟨s.skipped, [s.token], s.after⟩
  else
    let more := s.after.all
    ⟨s.skipped ++ more.skipped, s.token :: more.tokens, more.after⟩
termination_by c.rest.length
decreasing_by exact next_shrinks ‹_›

end Cursor

/-! ## Lexers -/

/-- A lexer in the middle of its work: where it stands, and the anomalies it
has met so far, in order. -/
structure Lexer where
  cursor : Cursor
  anomalies : List Anomaly
  deriving DecidableEq, Repr

namespace Lexer

def ofBytes (text : Bytes) : Lexer := ⟨.ofBytes text, []⟩

/-- Reads one token. -/
def next (l : Lexer) : Token × Lexer :=
  let s := l.cursor.next
  (s.token, ⟨s.after, l.anomalies ++ s.skipped⟩)

/-- Reads the tokens up to and including the end of input. -/
def all (l : Lexer) : List Token × Lexer :=
  let s := l.cursor.all
  (s.tokens, ⟨s.after, l.anomalies ++ s.skipped⟩)

end Lexer

/-- The tokens of a text; the last one, and only that, is the end of input. -/
def tokenize (text : Bytes) : List Token := (Cursor.ofBytes text).all.tokens

/-- The characters of a text that belong to no token and are no blanks. -/
def anomalies (text : Bytes) : List Anomaly := (Cursor.ofBytes text).all.skipped

end ThreeAddress
