import ThreeAddress.Proofs.Lexing.Reading

/-!
# Texts that spell phrases

`Written after s phrase` says that the string `s`, read before any text that
`after` allows, gives tokens that are a phrase of the given sort, and nothing
else. Strings are put together from pieces, and the phrases with them. A piece
that ends in a word or a numeral must come before a break; all others may come
before anything.
-/

namespace ThreeAddress.Writing

/-- A text that may come after anything. -/
def Anything (_ : Bytes) : Prop := True

/-- A text that may come after a word or a numeral. -/
def Break (rest : Bytes) : Prop := isBreak rest = true

def Written (after : Bytes → Prop) (s : String) (phrase : List Token → Prop) : Prop :=
  ∀ loc rest, after rest → ∃ w, phrase w ∧
    Cursor.Reads (.ofLoc (Bytes.ofString s ++ rest) loc) w
      (.ofLoc rest (loc.after (Bytes.ofString s)))

/-! ## Sorts of phrases -/

def NoToken (w : List Token) : Prop := w = []

def OfKind (k : Kind) (w : List Token) : Prop := ∃ t : Token, w = [t] ∧ t.kind = k

def OfKindText (k : Kind) (s : String) (w : List Token) : Prop :=
  ∃ t : Token, w = [t] ∧ t.kind = k ∧ t.text = s

/-- A phrase of one sort and then one of another. -/
def Then (A B : List Token → Prop) (w : List Token) : Prop := ∃ u v, w = u ++ v ∧ A u ∧ B v

namespace Written

variable {P Q : Bytes → Prop} {s t : String} {A B : List Token → Prop}

theorem imp (h : Written P s A) (hAB : ∀ w, A w → B w) : Written P s B := by
  intro loc rest hrest
  obtain ⟨w, hw, hreads⟩ := h loc rest hrest
  exact ⟨w, hAB w hw, hreads⟩

theorem restrict (h : Written Anything s A) : Written P s A :=
  fun loc rest _ => h loc rest trivial

theorem append (hs : Written P s A) (ht : Written Q t B)
    (hmeet : ∀ rest, Q rest → P (Bytes.ofString t ++ rest)) : Written Q (s ++ t) (Then A B) := by
  intro loc rest hrest
  obtain ⟨u, hu, hreads⟩ := hs loc (Bytes.ofString t ++ rest) (hmeet rest hrest)
  obtain ⟨v, hv, hreads'⟩ := ht (loc.after (Bytes.ofString s)) rest hrest
  refine ⟨u ++ v, ⟨u, v, rfl, hu, hv⟩, ?_⟩
  rw [Bytes.ofString_append, List.append_assoc, Location.after_append]
  exact hreads.trans hreads'

/-- What may come before anything comes before the next piece. -/
theorem andThen (hs : Written Anything s A) (ht : Written Q t B) : Written Q (s ++ t) (Then A B) :=
  hs.append ht fun _ _ => trivial

theorem then_noToken (h : Written P s (Then A NoToken)) : Written P s A := by
  refine h.imp ?_
  rintro w ⟨u, v, rfl, hu, rfl⟩
  rwa [List.append_nil]

theorem noToken_then (h : Written P s (Then NoToken A)) : Written P s A := by
  refine h.imp ?_
  rintro w ⟨u, v, rfl, rfl, hv⟩
  exact hv

end Written

/-! ## Pieces -/

theorem written_blanks {s : String} (h : (Bytes.ofString s).all isBlank = true) :
    Written Anything s NoToken := by
  rw [List.all_eq_true] at h
  intro loc rest _
  refine ⟨[], rfl, ?_⟩
  -- by the number of blanks, from wherever the first of them stands
  generalize Bytes.ofString s = bs at h
  induction bs generalizing loc with
  | nil => exact .refl _
  | cons b bs ih =>
      have hhead := Cursor.reads_blank (h b List.mem_cons_self) (bs ++ rest) loc
      exact hhead.trans (ih (loc.next b) fun x hx => h x (List.mem_cons_of_mem _ hx))

theorem written_lexeme {P : Bytes → Prop} {k : Kind} {s : String}
    (hascii : Bytes.ascii (Bytes.ofString s) = s)
    (h : ∀ rest, P rest →
      lexeme? (Bytes.ofString s ++ rest) = some (k, Bytes.ofString s)) :
    Written P s (OfKindText k s) := by
  intro loc rest hrest
  refine ⟨_, ⟨⟨k, Bytes.ascii (Bytes.ofString s), loc⟩, rfl, rfl, hascii⟩, ?_⟩
  exact Cursor.reads_lexeme (h rest hrest) loc

theorem written_name {s : String} (h : IsName s) : Written Break s (OfKindText .ident s) := by
  refine written_lexeme (Bytes.ascii_ofString h.1.ascii) fun rest hrest => ?_
  rw [lexeme?_word h.1 hrest, h.ofWord]

theorem written_numeral {s : String} (h : IsNumeral s) :
    Written Break s (OfKindText .number s) :=
  written_lexeme (Bytes.ascii_ofString h.ascii) fun _ hrest => lexeme?_numeral h hrest

theorem ofKind_of_ofKindText {k : Kind} {s : String} {w : List Token} (h : OfKindText k s w) :
    OfKind k w := by
  obtain ⟨t, hw, hkind, -⟩ := h
  exact ⟨t, hw, hkind⟩

theorem written_keyword (k : Kind) (hk : k.isKeyword = true) :
    Written Break k.name (OfKind k) := by
  have hword : ∀ k ∈ Kind.keywords, IsWord k.name ∧ Kind.ofWord k.name = k := by decide
  obtain ⟨hname, hkind⟩ := hword k (List.contains_iff_mem.mp hk)
  refine (written_lexeme (Bytes.ascii_ofString hname.ascii) fun rest hrest => ?_).imp
    fun _ => ofKind_of_ofKindText
  rw [lexeme?_word hname hrest, hkind]

theorem ascii_symbol {k : Kind} (hk : k.isSymbol = true) :
    Bytes.ascii (Bytes.ofString k.name) = k.name := by
  have hascii : ∀ k ∈ Kind.symbols, Bytes.ascii (Bytes.ofString k.name) = k.name := by decide
  exact hascii k (List.contains_iff_mem.mp hk)

theorem isSymbol_of_isPunctuation {k : Kind} (hk : k.isPunctuation = true) :
    k.isSymbol = true := by
  cases k with
  | semicolon | comma | lparen | rparen | lbrace | rbrace => rfl
  | _ => cases hk

theorem written_punctuation (k : Kind) (hk : k.isPunctuation = true) :
    Written Anything k.name (OfKind k) := by
  have hascii := ascii_symbol (isSymbol_of_isPunctuation hk)
  exact (written_lexeme hascii fun rest _ => lexeme?_punctuation hk rest).imp
    fun _ => ofKind_of_ofKindText

theorem written_space : Written Anything " " NoToken := written_blanks rfl

/-- Blanks around a symbol keep it from becoming part of a longer one. -/
theorem written_spaced (k : Kind) (hk : k.isSymbol = true) :
    Written Anything (" " ++ k.name ++ " ") (OfKind k) := by
  -- alone, a symbol may be written before a blank only
  have hsymbol : Written (fun rest => ∃ more, rest = 32 :: more) k.name (OfKind k) := by
    refine (written_lexeme (ascii_symbol hk) fun rest hrest => ?_).imp
      fun _ => ofKind_of_ofKindText
    obtain ⟨more, rfl⟩ := hrest
    exact lexeme?_symbol_blank hk more
  rw [String.append_assoc]
  have hright := (hsymbol.append written_space fun rest _ => ⟨rest, rfl⟩).then_noToken
  exact (written_space.andThen hright).noToken_then

theorem break_spaced (s : String) (rest : Bytes) :
    Break (Bytes.ofString (" " ++ s ++ " ") ++ rest) := by
  rw [Bytes.ofString_append, Bytes.ofString_append, List.append_assoc, List.append_assoc]
  rfl

end ThreeAddress.Writing
