import ThreeAddress.Proofs.Format.RoundTrip
import ThreeAddress.Proofs.Lexing.Layout

/-!
# The shortest source

Of all tokens that derive a tree, those of its printed text are the fewest, and no
others are as few. The grammar leaves three choices to a writer: parentheses
around any expression, an else part with nothing in it, and the keyword of the
declarations when there are none. Each of them costs tokens, so along a derivation
the tokens are spelled like the tree or there are more of them.
-/

namespace ThreeAddress

/-- The tokens are spelled so, or there are more of them. -/
def SpelledOrLonger (ss : List Spelling) (w : List Token) : Prop :=
  Spells ss w ∨ ss.length < w.length

theorem Spells.length_eq {ss : List Spelling} {w : List Token} (h : Spells ss w) :
    w.length = ss.length := by
  rw [← h, List.length_map]

namespace SpelledOrLonger

variable {s : Spelling} {ss ss' : List Spelling} {t : Token} {w v : List Token}

theorem length_le (h : SpelledOrLonger ss w) : ss.length ≤ w.length := by
  rcases h with h | h
  · rw [h.length_eq]
  · exact Nat.le_of_lt h

theorem spells (h : SpelledOrLonger ss w) (hlength : w.length = ss.length) : Spells ss w := by
  rcases h with h | h
  · exact h
  · omega

theorem append (h : SpelledOrLonger ss w) (h' : SpelledOrLonger ss' v) :
    SpelledOrLonger (ss ++ ss') (w ++ v) := by
  have hle := h.length_le
  have hle' := h'.length_le
  rcases h with h | h
  · rcases h' with h' | h'
    · exact .inl (spells_append_iff.mpr ⟨w, v, rfl, h, h'⟩)
    · right
      simp only [List.length_append]
      omega
  · right
    simp only [List.length_append]
    omega

theorem cons (ht : t.spelling = s) (h : SpelledOrLonger ss w) :
    SpelledOrLonger (s :: ss) (t :: w) :=
  append (.inl (spells_singleton_iff.mpr ⟨t, rfl, ht⟩)) h

theorem enclosed {first last : Kind} {opening closing : Token}
    (hopen : opening.spelling = first.spelling) (h : SpelledOrLonger ss w)
    (hclose : closing.spelling = last.spelling) :
    SpelledOrLonger (enclosed first last ss) (opening :: (w ++ [closing])) :=
  cons hopen (h.append (.inl (spells_singleton_iff.mpr ⟨closing, rfl, hclose⟩)))

end SpelledOrLonger

/-! ## Expressions -/

/-- At a higher level an expression is spelled the same, or in parentheses. -/
theorem Expr.spelling_raise {low high : Nat} (hle : low ≤ high) (x : Expr) :
    x.spelling high = x.spelling low ∨
      x.spelling high = enclosed .lparen .rparen (x.spelling low) := by
  cases x with
  | var | lit | missing => exact .inl rfl
  | bin pos op l r =>
      rw [Expr.spelling, Expr.spelling]
      by_cases hlow : op.prec < low
      · rw [if_pos hlow, if_pos (by omega)]
        exact .inl rfl
      · rw [if_neg hlow]
        split
        · exact .inr rfl
        · exact .inl rfl

theorem SpelledOrLonger.lower {low high : Nat} (hle : low ≤ high) {x : Expr} {w : List Token}
    (h : SpelledOrLonger (x.spelling high) w) : SpelledOrLonger (x.spelling low) w := by
  rcases x.spelling_raise hle with hraise | hraise
  · rwa [hraise] at h
  · right
    have hlength := h.length_le
    rw [hraise] at hlength
    simp only [ThreeAddress.enclosed, List.length_cons, List.length_append] at hlength
    omega

namespace Grammar

theorem SumOp.kind_prec {k : Kind} {op : Op} (h : SumOp k op) : op.kind = k ∧ op.prec = 2 := by
  cases h <;> exact ⟨rfl, rfl⟩

theorem ProductOp.kind_prec {k : Kind} {op : Op} (h : ProductOp k op) :
    op.kind = k ∧ op.prec = 3 := by
  cases h <;> exact ⟨rfl, rfl⟩

theorem RelOp.kind_prec {k : Kind} {op : Op} (h : RelOp k op) : op.kind = k ∧ op.prec = 1 := by
  cases h <;> exact ⟨rfl, rfl⟩

theorem kind_ne (op : Op) : op.kind ≠ .ident ∧ op.kind ≠ .number := by
  cases op <;> simp [Op.kind]

/-- The level at which a phrase is printed. -/
def Level.rank : Level → Nat
  | .expr => 2
  | .term => 3
  | .factor => 4

/-- An operator between its operands. -/
theorem bin_spelledOrLonger {op : Op} {t : Token} (ht : op.kind = t.kind) {w v : List Token}
    {x y : Expr} (hx : SpelledOrLonger (x.spelling op.prec) w)
    (hy : SpelledOrLonger (y.spelling (op.prec + 1)) v) {level : Nat} (hlevel : level ≤ op.prec) :
    SpelledOrLonger ((Expr.bin 0 op x y).spelling level) (w ++ t :: v) := by
  rw [Expr.spelling, if_neg (by omega)]
  exact hx.append (.cons (Token.spelling_of_kind ht.symm (kind_ne op)) hy)

theorem Phrase.spelledOrLonger {level : Level} {w : List Token} {x : Expr}
    (h : Phrase level w x) : SpelledOrLonger (x.spelling level.rank) w := by
  induction h with
  | @ident t hkind =>
      exact .inl (spells_singleton_iff.mpr ⟨t, rfl, Token.spelling_of_ident hkind⟩)
  | @number t hkind =>
      exact .inl (spells_singleton_iff.mpr ⟨t, rfl, Token.spelling_of_number hkind⟩)
  | @group opening closing w x hopen _ hclose ih =>
      -- the parentheses are needed, or the tokens are too many
      have hrank : Level.expr.rank ≤ Level.factor.rank := by decide
      rcases x.spelling_raise hrank with hraise | hraise
      · right
        have hlength := ih.length_le
        rw [hraise]
        simp only [List.length_cons, List.length_append]
        omega
      · rw [hraise]
        exact ih.enclosed (Token.spelling_of_kind hopen) (Token.spelling_of_kind hclose)
  | term _ ih => exact ih.lower (by decide)
  | expr _ ih => exact ih.lower (by decide)
  | product _ hop _ ihx ihy =>
      obtain ⟨hkind, hprec⟩ := hop.kind_prec
      exact bin_spelledOrLonger hkind (hprec ▸ ihx) (hprec ▸ ihy) (Nat.le_of_eq hprec.symm)
  | sum _ hop _ ihx ihy =>
      obtain ⟨hkind, hprec⟩ := hop.kind_prec
      exact bin_spelledOrLonger hkind (hprec ▸ ihx) (hprec ▸ ihy) (Nat.le_of_eq hprec.symm)

theorem Relation.spelledOrLonger {w : List Token} {x : Expr} (h : Relation w x) :
    SpelledOrLonger (x.spelling 0) w := by
  obtain ⟨hx, hop, hy⟩ := h
  obtain ⟨hkind, hprec⟩ := hop.kind_prec
  refine bin_spelledOrLonger hkind ?_ ?_ (Nat.zero_le _)
  · rw [hprec]
    exact hx.spelledOrLonger.lower (by decide)
  · rw [hprec]
    exact hy.spelledOrLonger

/-! ## Statements -/

/-- How the tree of a phrase is spelled. -/
def Symbol.spelling : (symbol : Symbol) → symbol.Tree → List Spelling
  | .stmt, s => s.spelling
  | .stmts, ss => Stmt.spellingOf ss
  | .block, ss => enclosed .lbrace .rbrace (Stmt.spellingOf ss)

theorem heading_spelledOrLonger {key : Kind} {t opening closing : Token} {w : List Token}
    {x : Expr} (ht : t.kind = key) (hopen : opening.kind = .lparen) (hx : Relation w x)
    (hclose : closing.kind = .rparen) (hkey : key ≠ .ident ∧ key ≠ .number := by decide) :
    SpelledOrLonger (headingSpelling key x) (t :: opening :: (w ++ [closing])) := by
  have hcond := hx.spelledOrLonger.enclosed (Token.spelling_of_kind hopen)
    (Token.spelling_of_kind hclose)
  exact hcond.cons (Token.spelling_of_kind ht hkey)

theorem Derives.spelledOrLonger {symbol : Symbol} {w : List Token} {tree : symbol.Tree}
    (h : Derives symbol w tree) : SpelledOrLonger (symbol.spelling tree) w := by
  induction h with
  | @assign name sign semicolon w x hname hsign hx hsemi =>
      have hvalue : SpelledOrLonger (x.spelling 0) w := hx.spelledOrLonger.lower (by decide)
      have hlast : SpelledOrLonger [Kind.semicolon.spelling] [semicolon] :=
        .cons (Token.spelling_of_kind hsemi) (.inl rfl)
      exact .cons (Token.spelling_of_ident hname)
        (.cons (Token.spelling_of_kind hsign) (hvalue.append hlast))
  | loop hkey hopen hx hclose _ ih =>
      have hhead := heading_spelledOrLonger hkey hopen hx hclose
      simpa [Symbol.spelling, Stmt.spelling] using hhead.append ih
  | branch hkey hopen hx hclose _ ih =>
      have hhead := heading_spelledOrLonger hkey hopen hx hclose
      simpa [Symbol.spelling, Stmt.spelling] using hhead.append ih
  | @branchElse key opening closing otherwise w v u x onTrue onFalse hkey hopen hx hclose _
      helse _ ihTrue ihFalse =>
      have hhead := heading_spelledOrLonger hkey hopen hx hclose
      -- an else part with nothing in it could have been left out
      have hback : SpelledOrLonger (if onFalse.isEmpty then []
          else Kind.keyElse.spelling :: enclosed .lbrace .rbrace (Stmt.spellingOf onFalse))
          (otherwise :: u) := by
        split
        · exact .inr (Nat.succ_pos _)
        · exact .cons (Token.spelling_of_kind helse) ihFalse
      simpa [Symbol.spelling, Stmt.spelling] using hhead.append (ihTrue.append hback)
  | nil => exact .inl rfl
  | cons _ _ ihs ihss => exact ihs.append ihss
  | block hopen _ hclose ih =>
      exact ih.enclosed (Token.spelling_of_kind hopen) (Token.spelling_of_kind hclose)

/-! ## Programs -/

theorem Names.spells {w : List Token} {names : List String} (h : Names w names) :
    Spells (namesSpelling names) w := by
  induction h with
  | one hident => exact spells_singleton_iff.mpr ⟨_, rfl, Token.spelling_of_ident hident⟩
  | @more t comma w names hident hcomma hnames ih =>
      cases names with
      | nil => cases hnames
      | cons n names =>
          refine spells_cons_iff.mpr ⟨t, _, rfl, Token.spelling_of_ident hident, ?_⟩
          exact spells_cons_iff.mpr ⟨comma, w, rfl, Token.spelling_of_kind hcomma, ih⟩

theorem TypeWord.kind_eq {k : Kind} {ty : Ty} (h : TypeWord k ty) :
    ty.kind = k ∧ k ≠ .ident ∧ k ≠ .number := by
  cases h <;> decide

theorem Declarations.spelledOrLonger {w : List Token} {ds : List Decl} (h : Declarations w ds) :
    SpelledOrLonger (ds.flatMap Decl.spelling) w := by
  induction h with
  | nil => exact .inl rfl
  | @cons t semicolon ty w v names ds htype hnames hsemi _ ih =>
      obtain ⟨hkind, hword⟩ := htype.kind_eq
      have hlast : SpelledOrLonger (Kind.semicolon.spelling :: ds.flatMap Decl.spelling)
          (semicolon :: v) :=
        .cons (Token.spelling_of_kind hsemi) ih
      have hdecl := SpelledOrLonger.append (.inl hnames.spells) hlast
      have hline := hdecl.cons (Token.spelling_of_kind hkind.symm (hkind ▸ hword))
      simpa [Decl.spelling] using hline

/-- Tokens that derive a program are spelled like the program, or there are more of
them. -/
theorem Sentence.spelledOrLonger {w : List Token} {p : Program} (h : Sentence w p) :
    SpelledOrLonger p.spelling w := by
  cases h with
  | plain hss => exact hss.spelledOrLonger
  | @declared key w v ds ss hkey hds hss =>
      -- with nothing declared, the keyword could have been left out
      have hpreamble : SpelledOrLonger (preambleSpelling ds) (key :: w) := by
        rw [preambleSpelling]
        split
        · exact .inr (Nat.succ_pos _)
        · exact .cons (Token.spelling_of_kind hkey) hds.spelledOrLonger
      exact hpreamble.append hss.spelledOrLonger

end Grammar

/-! ## Texts -/

/-- A lexeme of a kind other than names and numerals has the text of its kind. -/
theorem Lexeme.text_eq {s : String} {k : Kind} (h : Lexeme s k) (hk : k ≠ .ident ∧ k ≠ .number) :
    s = k.name := by
  have hkeyword : ∀ entry ∈ keywordTable, entry.1 = entry.2.name := by decide
  have hsymbol : ∀ entry ∈ symbolTable, entry.1 = entry.2.name := by decide
  cases h with
  | keyword hentry => exact hkeyword _ hentry
  | symbol hentry => exact hsymbol _ hentry
  | name => exact absurd rfl hk.1
  | number => exact absurd rfl hk.2

theorem spelling_of_mem_tokenize {text : Bytes} {t : Token} (h : t ∈ tokenize text)
    (hkind : t.kind ≠ .eof) : t.spelling = (t.kind, t.text) := by
  rcases Cursor.lexeme_of_mem_all h with heof | ⟨bs, w, hfound, htext⟩
  · exact absurd heof hkind
  · by_cases hword : t.kind = .ident ∨ t.kind = .number
    · rw [Token.spelling, if_pos hword]
    · have hlexeme := (lexeme_of_lexeme? hfound).1
      rw [Token.spelling, if_neg hword, htext, hlexeme.text_eq (not_or.mp hword)]
      rfl

/-- The kinds and texts of a text's tokens: as they are spelled, and then the end of
input. -/
theorem map_tokenize (text : Bytes) : (tokenize text).map (fun t => (t.kind, t.text)) =
    (sentence (tokenize text)).map Token.spelling ++ [(.eof, "")] := by
  obtain ⟨init, htokens, hproper⟩ := tokenize_end text
  have hspelling : ∀ t ∈ init, (t.kind, t.text) = t.spelling := by
    intro t ht
    have hmem : t ∈ tokenize text := by
      rw [htokens]
      exact List.mem_append_left _ ht
    exact (spelling_of_mem_tokenize hmem (hproper t ht)).symm
  rw [htokens, sentence_append_eof hproper rfl, List.map_append, List.map_congr_left hspelling]
  rfl

theorem length_tokenize (text : Bytes) :
    (tokenize text).length = (sentence (tokenize text)).length + 1 := by
  have hlength := congrArg List.length (map_tokenize text)
  simpa using hlength

/-- A text that spells a program has no other tokens. -/
theorem sentence_of_spelled {text : String} {ss : List Spelling}
    (h : Writing.Written Writing.Anything text (Spells ss)) :
    Spells ss (sentence (tokenize (Bytes.ofString text))) := by
  obtain ⟨w, hw, hreads⟩ := h .start [] trivial
  rw [List.append_nil] at hreads
  rw [tokenize, Cursor.ofBytes_eq, hreads.all_of_end, sentence_append_eof hreads.proper rfl]
  exact hw

/-- Formatting gives the one shortest source. A text that reads as a program can be
formatted; the formatted text has at most as many tokens, and if it has as many,
they are the same, kind by kind and text by text. So no pair of parentheses can be
dropped from it without changing the program. -/
theorem format_is_unique_shortest {src : Bytes} {p : Program} (h : parse (tokenize src) = .ok p) :
    ∃ text, p.formatOnto "" = .ok text ∧
      (tokenize (Bytes.ofString text)).length ≤ (tokenize src).length ∧
      ((tokenize (Bytes.ofString text)).length = (tokenize src).length →
        (tokenize (Bytes.ofString text)).map (fun t => (t.kind, t.text)) =
          (tokenize src).map fun t => (t.kind, t.text)) ∧
      ∀ front opening inner closing back,
        tokenize (Bytes.ofString text) = front ++ opening :: (inner ++ closing :: back) →
        opening.kind = .lparen → closing.kind = .rparen →
        ∀ q, parse (front ++ inner ++ back) = .ok q → q.erase ≠ p.erase := by
  have hsource := (sentence_of_parse h).spelledOrLonger
  have hwellFormed : p.erase.WellFormed :=
    (sentence_of_parse h).wellFormed fun t ht => spelled_of_mem_tokenize (mem_of_mem_sentence ht)
  obtain ⟨text, htext, hspelled⟩ := Printer.format_spelled hwellFormed
  rw [Program.formatOnto_erase] at htext
  have hprinted := sentence_of_spelled hspelled
  have hlength := hprinted.length_eq
  refine ⟨text, htext, ?_, fun hequal => ?_, ?_⟩
  · have hle := hsource.length_le
    rw [length_tokenize, length_tokenize]
    omega
  · rw [length_tokenize, length_tokenize] at hequal
    have hspells := hsource.spells (by omega)
    rw [map_tokenize, map_tokenize, hprinted, hspells]
  · intro front opening inner closing back htokens _ _ q hq herase
    -- what is left has fewer tokens than any sentence for the program
    have hle := (sentence_of_parse hq).spelledOrLonger.length_le
    have hshort : (sentence (front ++ inner ++ back)).length ≤ (front ++ inner ++ back).length :=
      (List.takeWhile_sublist _).length_le
    have hcount := congrArg List.length htokens
    rw [length_tokenize] at hcount
    rw [herase] at hle
    simp only [List.length_append, List.length_cons] at hcount hshort
    omega

/-- No layout, and parentheses that are needed. -/
def cramped : Bytes := Bytes.ofString "x=a-(b-c);"

def crampedTree : Program :=
  ⟨0, [], [.assign 0 "x" (.bin 2 .sub (.var 2 "a") (.bin 5 .sub (.var 5 "b") (.var 7 "c")))]⟩

theorem cramped_is_shortest :
    parse (tokenize cramped) = .ok crampedTree ∧
    crampedTree.formatOnto "" = .ok "x = a - (b - c);\n" ∧
    (tokenize (Bytes.ofString "x = a - (b - c);\n")).map (fun t => (t.kind, t.text)) =
      (tokenize cramped).map (fun t => (t.kind, t.text)) ∧
    ∀ q, parse
      [⟨.ident, "x", ⟨0, 1, 1⟩⟩, ⟨.assign, "=", ⟨2, 1, 3⟩⟩, ⟨.ident, "a", ⟨4, 1, 5⟩⟩,
        ⟨.minus, "-", ⟨6, 1, 7⟩⟩, ⟨.ident, "b", ⟨9, 1, 10⟩⟩, ⟨.minus, "-", ⟨11, 1, 12⟩⟩,
        ⟨.ident, "c", ⟨13, 1, 14⟩⟩, ⟨.semicolon, ";", ⟨15, 1, 16⟩⟩, ⟨.eof, "", ⟨17, 2, 1⟩⟩] =
      .ok q → q.erase ≠ crampedTree.erase := by
  have hparse : parse (tokenize cramped) = .ok crampedTree := by decide +kernel
  have hformat : crampedTree.formatOnto "" = .ok "x = a - (b - c);\n" := rfl
  have htokens : tokenize (Bytes.ofString "x = a - (b - c);\n") =
      [⟨.ident, "x", ⟨0, 1, 1⟩⟩, ⟨.assign, "=", ⟨2, 1, 3⟩⟩, ⟨.ident, "a", ⟨4, 1, 5⟩⟩,
        ⟨.minus, "-", ⟨6, 1, 7⟩⟩] ++ ⟨.lparen, "(", ⟨8, 1, 9⟩⟩ ::
      ([⟨.ident, "b", ⟨9, 1, 10⟩⟩, ⟨.minus, "-", ⟨11, 1, 12⟩⟩, ⟨.ident, "c", ⟨13, 1, 14⟩⟩] ++
        ⟨.rparen, ")", ⟨14, 1, 15⟩⟩ ::
          [⟨.semicolon, ";", ⟨15, 1, 16⟩⟩, ⟨.eof, "", ⟨17, 2, 1⟩⟩]) := by
    decide +kernel
  have hcount : (tokenize cramped).length = 11 := by decide +kernel
  obtain ⟨text, htext, -, hsame, hdrop⟩ := format_is_unique_shortest hparse
  rw [hformat] at htext
  cases htext
  refine ⟨hparse, hformat, hsame ?_, hdrop _ _ _ _ _ htokens rfl rfl⟩
  rw [htokens, hcount]
  rfl

end ThreeAddress
