import ThreeAddress.Proofs.Lexing.Reading

/-!
# Longest match

What the lexemes of the language are, said by patterns and tables and apart from
any way to find them, and that the lexer takes the longest one wherever it
stands.

The first byte of a lexeme tells what sort it is, so a lexeme is measured
against those of its own sort only: words against the run of word bytes,
numerals against the digits and what may follow a point, symbols against the
table.
-/

namespace ThreeAddress

/-! ## Lexemes -/

def keywordTable : List (String × Kind) :=
  [("var", .keyVar), ("int", .keyInt), ("real", .keyReal), ("while", .keyWhile), ("if", .keyIf),
    ("else", .keyElse)]

def symbolTable : List (String × Kind) :=
  [(";", .semicolon), (",", .comma), ("=", .assign), ("+", .plus), ("-", .minus), ("*", .star),
    ("/", .slash), ("^", .caret), ("<", .less), (">", .greater), ("<=", .lessEq),
    (">=", .greaterEq), ("==", .equal), ("!=", .notEqual), ("(", .lparen), (")", .rparen),
    ("\x7b", .lbrace), ("\x7d", .rbrace)]

/-- A text that is a token of the given kind. -/
inductive Lexeme : String → Kind → Prop
  | keyword {s : String} {k : Kind} : (s, k) ∈ keywordTable → Lexeme s k
  | name {s : String} : IsWord s → s ∉ keywordTable.map Prod.fst → Lexeme s .ident
  | number {s : String} : IsNumeral s → Lexeme s .number
  | symbol {s : String} {k : Kind} : (s, k) ∈ symbolTable → Lexeme s k

/-- The text begins with the lexeme `s`, and with no longer one. -/
structure Longest (s : String) (k : Kind) (text : Bytes) : Prop where
  lexeme : Lexeme s k
  front : Bytes.ofString s <+: text
  longest : ∀ s' k', Lexeme s' k' → Bytes.ofString s' <+: text →
    (Bytes.ofString s').length ≤ (Bytes.ofString s).length

/-! ## Lexemes as bytes -/

theorem isWord_of_keyword : ∀ entry ∈ keywordTable, IsWord entry.1 := by
  decide

theorem IsWord.bytes {s : String} (h : IsWord s) : ∃ b w, Bytes.ofString s = b :: w ∧
    isLetter b = true ∧ ∀ x ∈ b :: w, isWordByte x = true := by
  have hmap := Bytes.map_ofString h.ascii
  have hall := h.isNameChar
  obtain ⟨c, cs, hs, hc, -⟩ := h
  rw [← hmap] at hall
  rw [hs] at hmap
  obtain ⟨b, w, hbytes, rfl, -⟩ := List.map_eq_cons_iff.mp hmap
  refine ⟨b, w, hbytes, hc, fun x hx => ?_⟩
  exact hall _ (List.mem_map_of_mem (hbytes ▸ hx))

/-- The bytes of a numeral: digits, or digits around a point. -/
theorem IsNumeral.bytes {s : String} (h : IsNumeral s) :
    ∃ ds, ds ≠ [] ∧ (∀ x ∈ ds, isDigit x = true) ∧
      (Bytes.ofString s = ds ∨ ∃ p fs, Bytes.ofString s = ds ++ p :: fs ∧ Char.ofUInt8 p = '.' ∧
        fs ≠ [] ∧ ∀ x ∈ fs, isDigit x = true) := by
  have hmap := Bytes.map_ofString h.ascii
  rcases h with hs | ⟨whole, fraction, hw, hf, hs⟩
  · rw [← hmap, isDigits_map_iff] at hs
    exact ⟨_, hs.1, hs.2, .inl rfl⟩
  · rw [hs] at hmap
    obtain ⟨ds, tail, hbytes, rfl, htail⟩ := List.map_eq_append_iff.mp hmap
    obtain ⟨p, fs, rfl, hp, rfl⟩ := List.map_eq_cons_iff.mp htail
    rw [isDigits_map_iff] at hw hf
    exact ⟨ds, hw.1, hw.2, .inr ⟨p, fs, hbytes, hp, hf.1, hf.2⟩⟩

theorem isDigit_head {s : String} (h : IsNumeral s) :
    ∃ b w, Bytes.ofString s = b :: w ∧ isDigit b = true := by
  obtain ⟨ds, hne, hds, hs⟩ := h.bytes
  obtain ⟨b, ds', rfl⟩ := List.exists_cons_of_ne_nil hne
  rcases hs with hs | ⟨p, fs, hs, -⟩
  · exact ⟨b, ds', hs, hds b List.mem_cons_self⟩
  · exact ⟨b, ds' ++ p :: fs, hs, hds b List.mem_cons_self⟩

theorem symbol_head : ∀ entry ∈ symbolTable, ∃ b ∈ (Bytes.ofString entry.1).head?,
    isLetter b = false ∧ isDigit b = false := by
  decide

/-- The first byte of a lexeme tells what sort it is. -/
theorem Lexeme.sort {s : String} {k : Kind} (h : Lexeme s k) {b : UInt8} {bs : Bytes}
    (hfront : Bytes.ofString s <+: b :: bs) :
    if isLetter b then IsWord s else if isDigit b then IsNumeral s else (s, k) ∈ symbolTable := by
  have hword : IsWord s → isLetter b = true := by
    intro hs
    obtain ⟨b', w, hbytes, hletter, -⟩ := hs.bytes
    rw [hbytes, List.cons_prefix_cons] at hfront
    exact hfront.1 ▸ hletter
  cases h with
  | keyword hk =>
      rw [if_pos (hword (isWord_of_keyword _ hk))]
      exact isWord_of_keyword _ hk
  | name hs _ =>
      rw [if_pos (hword hs)]
      exact hs
  | number hs =>
      obtain ⟨b', w, hbytes, hdigit⟩ := isDigit_head hs
      rw [hbytes, List.cons_prefix_cons] at hfront
      obtain ⟨rfl, -⟩ := hfront
      have hletter : isLetter b' = false := isNameStart_of_isDigit hdigit
      simpa [hletter, hdigit] using hs
  | symbol hk =>
      obtain ⟨b', hb', hletter, hdigit⟩ := symbol_head _ hk
      obtain ⟨w, hbytes⟩ := List.head?_eq_some_iff.mp hb'
      rw [hbytes, List.cons_prefix_cons] at hfront
      obtain ⟨rfl, -⟩ := hfront
      simpa [hletter, hdigit] using hk

/-- A lexeme that stands alone is found, with its kind. -/
theorem Lexeme.lexeme?_self {s : String} {k : Kind} (h : Lexeme s k) :
    lexeme? (Bytes.ofString s) = some (k, Bytes.ofString s) := by
  have hword : IsWord s → lexeme? (Bytes.ofString s) = some (Kind.ofWord s, Bytes.ofString s) := by
    intro hs
    have hread := @lexeme?_word s hs [] rfl
    rwa [List.append_nil] at hread
  cases h with
  | keyword hk =>
      have hkind : ∀ entry ∈ keywordTable, Kind.ofWord entry.1 = entry.2 := by decide
      rw [hword (isWord_of_keyword _ hk), hkind _ hk]
  | name hs hfree =>
      have hname : IsName s := by
        refine ⟨hs, fun k hk hname => hfree ?_⟩
        have htable : ∀ k ∈ Kind.keywords, k.name ∈ keywordTable.map Prod.fst := by decide
        exact hname ▸ htable k hk
      rw [hword hs, hname.ofWord]
  | number hs =>
      have hread := @lexeme?_numeral s hs [] rfl
      rwa [List.append_nil] at hread
  | symbol hk =>
      have hread : ∀ entry ∈ symbolTable,
          lexeme? (Bytes.ofString entry.1) = some (entry.2, Bytes.ofString entry.1) := by decide
      exact hread _ hk

/-! ## No lexeme is longer -/

theorem prefix_takeWhile {p : UInt8 → Bool} {w bs : Bytes} (hw : ∀ x ∈ w, p x = true)
    (h : w <+: bs) : w <+: bs.takeWhile p := by
  obtain ⟨rest, rfl⟩ := h
  rw [List.takeWhile_append_of_pos hw]
  exact List.prefix_append _ _

theorem word_length_le {s : String} (hs : IsWord s) {bs : Bytes}
    (hfront : Bytes.ofString s <+: bs) :
    (Bytes.ofString s).length ≤ (bs.takeWhile isWordByte).length := by
  obtain ⟨b, w, hbytes, -, hall⟩ := hs.bytes
  rw [hbytes] at hfront ⊢
  exact (prefix_takeWhile hall hfront).length_le

theorem whole_length_le_numeral (bs : Bytes) :
    (bs.takeWhile isDigit).length ≤ (numeral bs).length := by
  unfold numeral
  split
  · split
    · simp
    · exact Nat.le_refl _
  · exact Nat.le_refl _

theorem numeral_length_le {s : String} (hs : IsNumeral s) {bs : Bytes}
    (hfront : Bytes.ofString s <+: bs) : (Bytes.ofString s).length ≤ (numeral bs).length := by
  obtain ⟨ds, -, hds, hs | ⟨p, fs, hs, hp, hne, hfs⟩⟩ := hs.bytes
  · rw [hs] at hfront ⊢
    exact (prefix_takeWhile hds hfront).length_le.trans (whole_length_le_numeral bs)
  · -- the point ends the first run of digits, so the numeral has it too and goes on behind it
    rw [hs] at hfront ⊢
    obtain ⟨rest, rfl⟩ := hfront
    have hpoint : isDigit p = false := by
      rw [isDigit, hp]
      decide
    have hrun : fs <+: (fs ++ rest).takeWhile isDigit :=
      prefix_takeWhile hfs (List.prefix_append _ _)
    have hsome : (fs ++ rest).takeWhile isDigit ≠ [] := by
      intro hnil
      exact hne (List.prefix_nil.mp (hnil ▸ hrun))
    have hnumeral : numeral (ds ++ p :: (fs ++ rest)) =
        ds ++ p :: (fs ++ rest).takeWhile isDigit := by
      unfold numeral
      rw [List.dropWhile_append_of_pos hds, List.dropWhile_cons_of_neg (by simp [hpoint]),
        takeWhile_digits hds (List.takeWhile_cons_of_neg (by simp [hpoint]))]
      simp only [hp, true_and]
      rw [if_pos hsome]
    rw [List.append_assoc, List.cons_append, hnumeral]
    simpa using hrun.length_le

theorem spelling_of_symbol :
    ∀ entry ∈ symbolTable, (entry.2, Bytes.ofString entry.1) ∈ symbolSpellings := by
  decide

theorem symbolSpellings_sorted :
    symbolSpellings.Pairwise fun x y => y.2.length ≤ x.2.length := by
  decide

/-- Longer symbols are tried first, so all that fit are at most as long as the
first that fits. -/
theorem symbol_length_le {bs : Bytes} {found : Kind × Bytes}
    (hfind : symbolSpellings.find? (fun entry => entry.2.isPrefixOf bs) = some found)
    {s : String} {k : Kind} (hs : (s, k) ∈ symbolTable) (hfront : Bytes.ofString s <+: bs) :
    (Bytes.ofString s).length ≤ found.2.length := by
  obtain ⟨-, before, after, hsplit, hbefore⟩ := List.find?_eq_some_iff_append.mp hfind
  have hmem := spelling_of_symbol _ hs
  have hsorted := symbolSpellings_sorted
  rw [hsplit] at hmem hsorted
  rcases List.mem_append.mp hmem with hmem | hmem
  · have hnot := hbefore _ hmem
    rw [List.isPrefixOf_iff_prefix.mpr hfront] at hnot
    cases hnot
  · rcases List.mem_cons.mp hmem with rfl | hmem
    · exact Nat.le_refl _
    · exact (List.pairwise_cons.mp (List.pairwise_append.mp hsorted).2.1).1 _ hmem

/-- No lexeme at the front of a text is longer than the one found there. -/
theorem length_le_of_lexeme? {bs w : Bytes} {k : Kind} (h : lexeme? bs = some (k, w))
    {s : String} {k' : Kind} (hs : Lexeme s k') (hfront : Bytes.ofString s <+: bs) :
    (Bytes.ofString s).length ≤ w.length := by
  cases bs with
  | nil => cases h
  | cons b bs =>
      have hsort := hs.sort hfront
      rw [lexeme?] at h
      by_cases hletter : isLetter b = true
      · rw [if_pos hletter] at h hsort
        cases h
        exact word_length_le hsort hfront
      · rw [if_neg hletter] at h hsort
        by_cases hdigit : isDigit b = true
        · rw [if_pos hdigit] at h hsort
          cases h
          exact numeral_length_le hsort hfront
        · rw [if_neg hdigit] at h hsort
          exact symbol_length_le h hsort hfront

/-- Where no lexeme is found, the text begins with none. -/
theorem not_prefix_of_lexeme?_eq_none {bs : Bytes} (h : lexeme? bs = none) {s : String} {k : Kind}
    (hs : Lexeme s k) : ¬ Bytes.ofString s <+: bs := by
  intro hfront
  cases bs with
  | nil => exact lexeme?_ne_nil hs.lexeme?_self (List.prefix_nil.mp hfront)
  | cons b bs =>
      have hsort := hs.sort hfront
      rw [lexeme?] at h
      by_cases hletter : isLetter b = true
      · rw [if_pos hletter] at h
        cases h
      · rw [if_neg hletter] at h hsort
        by_cases hdigit : isDigit b = true
        · rw [if_pos hdigit] at h
          cases h
        · rw [if_neg hdigit] at h hsort
          have hnot := List.find?_eq_none.mp h _ (spelling_of_symbol _ hsort)
          exact hnot (List.isPrefixOf_iff_prefix.mpr hfront)

/-! ## What is found is a lexeme -/

theorem Bytes.ofString_ascii {w : Bytes} (h : ∀ c ∈ (Bytes.ascii w).toList, c.toNat < 128) :
    Bytes.ofString (Bytes.ascii w) = w := by
  rw [Bytes.toList_ascii] at h
  rw [Bytes.ofString_eq_flatMap, Bytes.toList_ascii]
  induction w with
  | nil => rfl
  | cons b w ih =>
      have hb : (Char.ofUInt8 b).toNat < 128 := h _ (by simp)
      rw [List.map_cons, List.flatMap_cons, utf8EncodeChar_of_lt hb,
        ih fun c hc => h c (List.mem_cons_of_mem _ hc)]
      have hback : (Char.ofUInt8 b).toUInt8 = b := UInt8.toUInt8_toUInt32 b
      rw [hback, List.singleton_append]

theorem ofWord_lexeme {s : String} (h : IsWord s) : Lexeme s (Kind.ofWord s) := by
  have htable : ∀ k ∈ Kind.keywords, (k.name, k) ∈ keywordTable := by decide
  have hnames : ∀ entry ∈ keywordTable, entry.2 ∈ Kind.keywords ∧ entry.2.name = entry.1 := by
    decide
  unfold Kind.ofWord
  cases hfind : Kind.keywords.find? (·.name == s) with
  | some k =>
      have hname : k.name = s := by simpa using List.find?_some hfind
      exact .keyword (hname ▸ htable k (List.mem_of_find?_eq_some hfind))
  | none =>
      refine .name h fun hmem => ?_
      obtain ⟨entry, hentry, hs⟩ := List.mem_map.mp hmem
      obtain ⟨hk, hname⟩ := hnames entry hentry
      exact List.find?_eq_none.mp hfind entry.2 hk (by simp [hname, hs])

theorem symbol_entry : ∀ k ∈ Kind.symbols, (k.name, k) ∈ symbolTable ∧
    (k.name.toList.all fun c => c.toNat < 128) = true := by
  decide

/-- What is found at the front of a text, read as characters, is a lexeme. -/
theorem lexeme_of_lexeme? {bs w : Bytes} {k : Kind} (h : lexeme? bs = some (k, w)) :
    Lexeme (Bytes.ascii w) k ∧ Bytes.ofString (Bytes.ascii w) = w := by
  rcases lexeme?_cases h with ⟨hword, rfl⟩ | ⟨hnumeral, rfl⟩ | ⟨hk, rfl⟩
  · exact ⟨ofWord_lexeme hword, Bytes.ofString_ascii hword.ascii⟩
  · exact ⟨.number hnumeral, Bytes.ofString_ascii hnumeral.ascii⟩
  · obtain ⟨hentry, hascii⟩ := symbol_entry k hk
    rw [Bytes.ascii_ofString (by simpa using hascii)]
    exact ⟨.symbol hentry, rfl⟩

theorem longest_of_lexeme? {bs w : Bytes} {k : Kind} (h : lexeme? bs = some (k, w)) :
    Longest (Bytes.ascii w) k bs := by
  obtain ⟨hlexeme, hbytes⟩ := lexeme_of_lexeme? h
  refine ⟨hlexeme, ?_, ?_⟩
  · rw [hbytes]
    exact prefix_of_lexeme? h
  · rw [hbytes]
    exact fun s' k' => length_le_of_lexeme? h

/-! ## There is one longest lexeme -/

/-- A lexeme is of one kind only. -/
theorem Lexeme.kind_unique {s : String} {k k' : Kind} (h : Lexeme s k) (h' : Lexeme s k') :
    k = k' := by
  have hboth := h.lexeme?_self.symm.trans h'.lexeme?_self
  cases hboth
  rfl

theorem Longest.unique {s s' : String} {k k' : Kind} {text : Bytes} (h : Longest s k text)
    (h' : Longest s' k' text) : s = s' ∧ k = k' := by
  have hlen : (Bytes.ofString s).length = (Bytes.ofString s').length :=
    Nat.le_antisymm (h'.longest s k h.lexeme h.front) (h.longest s' k' h'.lexeme h'.front)
  have hfront := List.prefix_of_prefix_length_le h.front h'.front hlen.le
  obtain rfl : s = s' := Bytes.ofString_inj (hfront.eq_of_length hlen)
  exact ⟨rfl, h.lexeme.kind_unique h'.lexeme⟩

/-! ## The lexer -/

/-- The place of an offset in a text. -/
def Location.ofOffset (text : Bytes) (offset : Nat) : Location := start.after (text.take offset)

/-- The lexer of a text at an offset, with the anomalies it has met so far. -/
def Lexer.ofOffset (text : Bytes) (offset : Nat) (met : List Anomaly) : Lexer :=
  ⟨(Cursor.ofBytes text).past offset, met⟩

theorem Cursor.loc_past_ofBytes (text : Bytes) (n : Nat) :
    ((ofBytes text).past n).loc = .ofOffset text n := loc_past _ _

namespace Lexer

variable {text : Bytes} {n : Nat} {b : UInt8}

theorem next_ofOffset_blank (hb : text[n]? = some b) (hblank : isBlank b = true)
    (met : List Anomaly) : (ofOffset text n met).next = (ofOffset text (n + 1) met).next := by
  have hhead : ((Cursor.ofBytes text).past n).rest.head? = some b := by
    rw [← hb]
    exact List.head?_drop
  rw [ofOffset, ofOffset, next, next, Cursor.next_of_blank hhead hblank, Cursor.past_past]

theorem next_ofOffset_lexeme {k : Kind} {w : Bytes} (h : lexeme? (text.drop n) = some (k, w))
    (met : List Anomaly) :
    (ofOffset text n met).next =
      (⟨k, Bytes.ascii w, .ofOffset text n⟩, ofOffset text (n + w.length) met) := by
  have hnext : ((Cursor.ofBytes text).past n).next = _ := Cursor.next_of_lexeme h
  rw [ofOffset, ofOffset, next, hnext, Cursor.past_past, Cursor.loc_past_ofBytes, List.append_nil]

theorem next_ofOffset_anomaly (hb : text[n]? = some b) (hblank : isBlank b = false)
    (h : lexeme? (text.drop n) = none) (met : List Anomaly) :
    (ofOffset text n met).next =
      (ofOffset text (n + (Utf8.front (text.drop n)).2)
        (met ++ [⟨(Utf8.front (text.drop n)).1, .ofOffset text n⟩])).next := by
  have hhead : ((Cursor.ofBytes text).past n).rest.head? = some b := by
    rw [← hb]
    exact List.head?_drop
  have hnext : ((Cursor.ofBytes text).past n).next = _ := Cursor.next_of_anomaly hhead hblank h
  rw [ofOffset, ofOffset, next, next, hnext, Cursor.past_past, Cursor.loc_past_ofBytes,
    List.append_assoc]
  rfl

end Lexer

/-- The lexer takes the longest match. Wherever it stands in a text, it passes
over a blank; the longest lexeme that the rest of the text begins with becomes
the next token, and there is a longest one if there is any; and where the rest
begins with none, one anomaly is recorded, for the character or the stray byte
that stands there, and the lexer goes on right behind it. -/
theorem lexer_takes_longest_match (text : Bytes) (n : Nat) (met : List Anomaly) :
    Lexer.ofBytes text = Lexer.ofOffset text 0 [] ∧
    (∀ b, text[n]? = some b → b ∈ [32, 9, 13, 10, 12, 11] →
      (Lexer.ofOffset text n met).next = (Lexer.ofOffset text (n + 1) met).next) ∧
    (∀ s k, Lexeme s k → Bytes.ofString s <+: text.drop n → ∃ s k, Longest s k (text.drop n)) ∧
    (∀ s k, Longest s k (text.drop n) →
      (Lexer.ofOffset text n met).next =
        (⟨k, s, .ofOffset text n⟩, .ofOffset text (n + (Bytes.ofString s).length) met)) ∧
    ∀ b, text[n]? = some b → b ∉ [32, 9, 13, 10, 12, 11] →
      (∀ s k, Lexeme s k → ¬ Bytes.ofString s <+: text.drop n) →
      ∃ c width, Utf8.FrontIs (text.drop n) c width ∧
        (Lexer.ofOffset text n met).next =
          (Lexer.ofOffset text (n + width) (met ++ [⟨c, .ofOffset text n⟩])).next := by
  refine ⟨rfl, ?_, ?_, ?_, ?_⟩
  · intro b hb hblank
    exact Lexer.next_ofOffset_blank hb (isBlank_iff.mpr hblank) met
  · intro s k hs hfront
    cases hfound : lexeme? (text.drop n) with
    | none => exact absurd hfront (not_prefix_of_lexeme?_eq_none hfound hs)
    | some found => exact ⟨_, _, longest_of_lexeme? hfound⟩
  · intro s k hs
    cases hfound : lexeme? (text.drop n) with
    | none => exact absurd hs.front (not_prefix_of_lexeme?_eq_none hfound hs.lexeme)
    | some found =>
        obtain ⟨k', w⟩ := found
        obtain ⟨rfl, rfl⟩ := hs.unique (longest_of_lexeme? hfound)
        rw [Lexer.next_ofOffset_lexeme hfound, (lexeme_of_lexeme? hfound).2]
  · intro b hb hblank hnone
    have hfound : lexeme? (text.drop n) = none := by
      cases hfound : lexeme? (text.drop n) with
      | none => rfl
      | some found =>
          have hlongest := longest_of_lexeme? hfound
          exact absurd hlongest.front (hnone _ _ hlongest.lexeme)
    have hsolid : isBlank b = false := by
      rw [Bool.eq_false_iff]
      exact fun h => hblank (isBlank_iff.mp h)
    exact ⟨_, _, Utf8.frontIs_front _, Lexer.next_ofOffset_anomaly hb hsolid hfound met⟩

/-- A point that no digit follows: the number ends before it, and it is skipped. -/
theorem stray_point_is_skipped :
    let text : Bytes := [49, 46, 33]
    Longest "1" .number (text.drop 0) ∧
    (Lexer.ofOffset text 0 []).next =
      (⟨.number, "1", ⟨0, 1, 1⟩⟩, Lexer.ofOffset text 1 []) ∧
    (∀ s k, Lexeme s k → ¬ Bytes.ofString s <+: text.drop 1) ∧
    ∃ c width, Utf8.FrontIs (text.drop 1) c width ∧
      (Lexer.ofOffset text 1 []).next =
        (Lexer.ofOffset text (1 + width) [⟨c, ⟨1, 1, 2⟩⟩]).next := by
  intro text
  have hone : Longest "1" .number (text.drop 0) := longest_of_lexeme? (w := [49]) rfl
  have hpoint : ∀ s k, Lexeme s k → ¬ Bytes.ofString s <+: text.drop 1 :=
    fun s k => not_prefix_of_lexeme?_eq_none rfl
  exact ⟨hone, (lexer_takes_longest_match text 0 []).2.2.2.1 _ _ hone, hpoint,
    (lexer_takes_longest_match text 1 []).2.2.2.2 46 rfl (by decide) hpoint⟩

end ThreeAddress
