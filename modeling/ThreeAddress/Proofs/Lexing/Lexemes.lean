import Mathlib.Data.List.TakeWhile
import ThreeAddress.Proofs.Program.WellFormed
import ThreeAddress.Token.Lexer

/-!
# Lexemes

A lexeme is a word, a numeral or a symbol, and which of them the longest one at
the front of a text is can be told from its spelling. The other way round, a
word or a numeral is the lexeme at the front of a text if what comes after it
does not go on with it.
-/

namespace ThreeAddress

/-! ## Strings as bytes -/

theorem Bytes.ofString_append (s t : String) :
    Bytes.ofString (s ++ t) = Bytes.ofString s ++ Bytes.ofString t := by
  simp [Bytes.ofString]

theorem Bytes.ofString_inj {s t : String} (h : Bytes.ofString s = Bytes.ofString t) : s = t := by
  apply String.toByteArray_inj.mp
  apply ByteArray.ext
  exact Array.toList_inj.mp h

theorem Bytes.ofString_eq_flatMap (s : String) :
    Bytes.ofString s = s.toList.flatMap String.utf8EncodeChar := by
  rw [Bytes.ofString, String.toUTF8_eq_toByteArray, ← String.utf8Encode_toList, List.utf8Encode]
  simp

theorem utf8EncodeChar_of_lt {c : Char} (h : c.toNat < 128) :
    String.utf8EncodeChar c = [c.toUInt8] := by
  apply String.utf8EncodeChar_eq_singleton
  rw [Char.utf8Size_eq_one_iff, UInt32.le_iff_toNat_le]
  exact Nat.le_of_lt_succ h

theorem ofUInt8_toUInt8 {c : Char} (h : c.toNat < 128) : Char.ofUInt8 c.toUInt8 = c := by
  apply Char.ext
  apply UInt32.toNat_inj.mp
  show c.val.toUInt8.toUInt32.toNat = c.val.toNat
  have hc : c.val.toNat < 128 := h
  simp only [UInt8.toNat_toUInt32, UInt32.toNat_toUInt8]
  omega

/-- The bytes of an ASCII string are its characters. -/
theorem Bytes.map_ofString {s : String} (h : ∀ c ∈ s.toList, c.toNat < 128) :
    (Bytes.ofString s).map Char.ofUInt8 = s.toList := by
  rw [Bytes.ofString_eq_flatMap]
  generalize s.toList = cs at h
  induction cs with
  | nil => rfl
  | cons c cs ih =>
      have hc : c.toNat < 128 := h c List.mem_cons_self
      rw [List.flatMap_cons, List.map_append, ih fun d hd => h d (List.mem_cons_of_mem _ hd),
        utf8EncodeChar_of_lt hc, List.map_singleton, ofUInt8_toUInt8 hc, List.singleton_append]

theorem Bytes.ascii_ofString {s : String} (h : ∀ c ∈ s.toList, c.toNat < 128) :
    Bytes.ascii (Bytes.ofString s) = s := by
  rw [Bytes.ascii, Bytes.map_ofString h, String.ofList_toList]

theorem Bytes.toList_ascii (bs : Bytes) : (Bytes.ascii bs).toList = bs.map Char.ofUInt8 := by
  rw [Bytes.ascii, String.toList_ofList]

/-! ## What a lexeme is -/

theorem isUpper_iff {c : Char} : c.isUpper = true ↔ 65 ≤ c.toNat ∧ c.toNat ≤ 90 := by
  show decide (65 ≤ c.val ∧ c.val ≤ 90) = true ↔ _
  rw [decide_eq_true_eq, UInt32.le_iff_toNat_le, UInt32.le_iff_toNat_le]
  rfl

theorem isLower_iff {c : Char} : c.isLower = true ↔ 97 ≤ c.toNat ∧ c.toNat ≤ 122 := by
  show (decide (97 ≤ c.val) && decide (c.val ≤ 122)) = true ↔ _
  rw [Bool.and_eq_true, decide_eq_true_eq, decide_eq_true_eq, UInt32.le_iff_toNat_le,
    UInt32.le_iff_toNat_le]
  rfl

theorem isDigit_iff {c : Char} : c.isDigit = true ↔ 48 ≤ c.toNat ∧ c.toNat ≤ 57 := by
  show (decide (48 ≤ c.val) && decide (c.val ≤ 57)) = true ↔ _
  rw [Bool.and_eq_true, decide_eq_true_eq, decide_eq_true_eq, UInt32.le_iff_toNat_le,
    UInt32.le_iff_toNat_le]
  rfl

theorem isNameStart_iff {c : Char} : isNameStart c = true ↔
    65 ≤ c.toNat ∧ c.toNat ≤ 90 ∨ 97 ≤ c.toNat ∧ c.toNat ≤ 122 ∨ c.toNat = 95 := by
  show (c.isUpper || c.isLower || c == '_') = true ↔ _
  rw [Bool.or_eq_true, Bool.or_eq_true, beq_iff_eq, isUpper_iff, isLower_iff, or_assoc,
    ← Char.toNat_inj]
  rfl

theorem lt_of_isNameChar {c : Char} (h : isNameChar c = true) : c.toNat < 128 := by
  rw [isNameChar, Bool.or_eq_true, isNameStart_iff, isDigit_iff] at h
  omega

theorem isWord_ascii {b : UInt8} {w : Bytes} (hb : isLetter b = true)
    (hw : ∀ x ∈ w, isWordByte x = true) : IsWord (Bytes.ascii (b :: w)) := by
  refine ⟨Char.ofUInt8 b, w.map Char.ofUInt8, Bytes.toList_ascii _, hb, ?_⟩
  rw [List.all_map, List.all_eq_true]
  exact hw

theorem isDigits_map_iff {ds : Bytes} :
    IsDigits (ds.map Char.ofUInt8) ↔ ds ≠ [] ∧ ∀ x ∈ ds, isDigit x = true := by
  simp [IsDigits, isDigit]

theorem isNumeral_ascii_numeral {b : UInt8} {bs : Bytes} (hb : isDigit b = true) :
    IsNumeral (Bytes.ascii (numeral (b :: bs))) := by
  have hwhole : IsDigits (((b :: bs).takeWhile isDigit).map Char.ofUInt8) :=
    isDigits_map_iff.mpr ⟨by simp [hb], fun _ => List.mem_takeWhile_imp⟩
  unfold IsNumeral
  rw [Bytes.toList_ascii, numeral]
  split
  · rename_i point rest _
    split
    · rename_i h
      right
      refine ⟨_, (rest.takeWhile isDigit).map Char.ofUInt8, hwhole,
        isDigits_map_iff.mpr ⟨h.2, fun _ => List.mem_takeWhile_imp⟩, ?_⟩
      rw [List.map_append, List.map_cons, h.1]
    · exact .inl hwhole
  · exact .inl hwhole

/-- The three sorts of lexemes. -/
theorem lexeme?_cases {bs w : Bytes} {k : Kind} (h : lexeme? bs = some (k, w)) :
    (IsWord (Bytes.ascii w) ∧ k = Kind.ofWord (Bytes.ascii w)) ∨
    (IsNumeral (Bytes.ascii w) ∧ k = .number) ∨
    (k ∈ Kind.symbols ∧ w = Bytes.ofString k.name) := by
  cases bs with
  | nil => cases h
  | cons b bs =>
      rw [lexeme?] at h
      split at h
      · rename_i hb
        have htake : (b :: bs).takeWhile isWordByte = b :: bs.takeWhile isWordByte := by
          simp [isWordByte, hb]
        rw [htake] at h
        cases h
        exact .inl ⟨isWord_ascii hb fun _ => List.mem_takeWhile_imp, rfl⟩
      · split at h
        · rename_i hb
          cases h
          exact .inr (.inl ⟨isNumeral_ascii_numeral hb, rfl⟩)
        · have hmem := List.mem_of_find?_eq_some h
          obtain ⟨k', hk', heq⟩ := List.mem_map.mp hmem
          cases heq
          exact .inr (.inr ⟨hk', rfl⟩)

theorem Kind.ofWord_cases (s : String) :
    Kind.ofWord s ∈ Kind.keywords ∨
      (∀ k ∈ Kind.keywords, k.name ≠ s) ∧ Kind.ofWord s = .ident := by
  unfold Kind.ofWord
  cases hfind : Kind.keywords.find? (·.name == s) with
  | some k => exact .inl (List.mem_of_find?_eq_some hfind)
  | none =>
      refine .inr ⟨fun k hk hname => ?_, rfl⟩
      exact List.find?_eq_none.mp hfind k hk (by simp [hname])

theorem isName_of_lexeme? {bs w : Bytes} (h : lexeme? bs = some (.ident, w)) :
    IsName (Bytes.ascii w) := by
  rcases lexeme?_cases h with ⟨hword, hkind⟩ | ⟨_, hkind⟩ | ⟨hmem, _⟩
  · rcases Kind.ofWord_cases (Bytes.ascii w) with hmem | ⟨hfree, _⟩
    · rw [← hkind] at hmem
      exact absurd hmem (by decide)
    · exact ⟨hword, hfree⟩
  · cases hkind
  · exact absurd hmem (by decide)

theorem isNumeral_of_lexeme? {bs w : Bytes} (h : lexeme? bs = some (.number, w)) :
    IsNumeral (Bytes.ascii w) := by
  rcases lexeme?_cases h with ⟨_, hkind⟩ | ⟨hnum, _⟩ | ⟨hmem, _⟩
  · rcases Kind.ofWord_cases (Bytes.ascii w) with hmem | ⟨_, hident⟩
    · rw [← hkind] at hmem
      exact absurd hmem (by decide)
    · rw [← hkind] at hident
      cases hident
  · exact hnum
  · exact absurd hmem (by decide)

/-! ## Where a lexeme stands -/

theorem prefix_of_numeral (bs : Bytes) : numeral bs <+: bs := by
  unfold numeral
  split
  · rename_i point rest hdrop
    split
    · obtain ⟨more, hmore⟩ : rest.takeWhile isDigit <+: rest := List.takeWhile_prefix _
      refine ⟨more, ?_⟩
      rw [List.append_assoc, List.cons_append, hmore, ← hdrop, List.takeWhile_append_dropWhile]
    · exact List.takeWhile_prefix _
  · exact List.takeWhile_prefix _

theorem prefix_of_lexeme? {bs w : Bytes} {k : Kind} (h : lexeme? bs = some (k, w)) : w <+: bs := by
  cases bs with
  | nil => cases h
  | cons b bs =>
      rw [lexeme?] at h
      split at h
      · cases h
        exact List.takeWhile_prefix _
      · split at h
        · cases h
          exact prefix_of_numeral _
        · simpa using List.find?_some h

/-! ## Reading a lexeme back -/

/-- Neither a word nor a numeral that stands before the text goes on into it. -/
def isBreak : Bytes → Bool
  | [] => true
  | b :: _ => !isWordByte b && Char.ofUInt8 b != '.'

theorem takeWhile_isWordByte_of_isBreak {rest : Bytes} (h : isBreak rest = true) :
    rest.takeWhile isWordByte = [] := by
  cases rest with
  | nil => rfl
  | cons b rest =>
      have hb : isWordByte b = false := by
        simp only [isBreak, Bool.and_eq_true, Bool.not_eq_true'] at h
        exact h.1
      simp [hb]

theorem isDigit_of_isBreak {b : UInt8} {rest : Bytes} (h : isBreak (b :: rest) = true) :
    isDigit b = false ∧ Char.ofUInt8 b ≠ '.' := by
  simp only [isBreak, isWordByte, Bool.and_eq_true, Bool.not_eq_true', Bool.or_eq_false_iff,
    bne_iff_ne] at h
  exact ⟨h.1.2, h.2⟩

theorem IsWord.isNameChar {s : String} (h : IsWord s) : ∀ c ∈ s.toList, isNameChar c = true := by
  obtain ⟨c, cs, hs, hc, hcs⟩ := h
  rw [hs]
  intro d hd
  rcases List.mem_cons.mp hd with rfl | hd
  · simp [ThreeAddress.isNameChar, hc]
  · exact List.all_eq_true.mp hcs d hd

theorem IsWord.ascii {s : String} (h : IsWord s) : ∀ c ∈ s.toList, c.toNat < 128 :=
  fun c hc => lt_of_isNameChar (h.isNameChar c hc)

theorem lexeme?_word {s : String} (h : IsWord s) {rest : Bytes} (hrest : isBreak rest = true) :
    lexeme? (Bytes.ofString s ++ rest) = some (Kind.ofWord s, Bytes.ofString s) := by
  have hmap := Bytes.map_ofString h.ascii
  have hword := Bytes.ascii_ofString h.ascii
  have hbytes : ∀ x ∈ Bytes.ofString s, isWordByte x = true := by
    intro x hx
    exact h.isNameChar (Char.ofUInt8 x) (hmap ▸ List.mem_map_of_mem hx)
  -- all of the word is taken, and the break stops it from taking more
  have htake : (Bytes.ofString s ++ rest).takeWhile isWordByte = Bytes.ofString s := by
    rw [List.takeWhile_append_of_pos hbytes, takeWhile_isWordByte_of_isBreak hrest,
      List.append_nil]
  obtain ⟨c, cs, hs, hc, -⟩ := h
  rw [hs] at hmap
  obtain ⟨b, w, hbs, hb, -⟩ := List.map_eq_cons_iff.mp hmap
  have hletter : isLetter b = true := by
    rw [isLetter, hb]
    exact hc
  rw [hbs] at htake hword ⊢
  rw [List.cons_append] at htake ⊢
  rw [lexeme?, if_pos hletter, htake]
  show some (Kind.ofWord (Bytes.ascii (b :: w)), b :: w) = some (Kind.ofWord s, b :: w)
  rw [hword]

theorem IsName.ofWord {s : String} (h : IsName s) : Kind.ofWord s = .ident := by
  unfold Kind.ofWord
  rw [List.find?_eq_none.mpr fun k hk => by simpa using h.2 k hk]
  rfl

theorem isNameStart_of_isDigit {c : Char} (h : c.isDigit = true) : isNameStart c = false := by
  rw [Bool.eq_false_iff]
  intro hstart
  rw [isNameStart_iff] at hstart
  rw [isDigit_iff] at h
  omega

theorem takeWhile_digits {ds rest : Bytes} (hds : ∀ x ∈ ds, isDigit x = true)
    (hrest : rest.takeWhile isDigit = []) : (ds ++ rest).takeWhile isDigit = ds := by
  rw [List.takeWhile_append_of_pos hds, hrest, List.append_nil]

theorem numeral_whole {ds rest : Bytes} (hds : ∀ x ∈ ds, isDigit x = true)
    (hrest : isBreak rest = true) : numeral (ds ++ rest) = ds := by
  unfold numeral
  rw [List.dropWhile_append_of_pos hds]
  cases rest with
  | nil => simpa using List.takeWhile_eq_self_iff.mpr hds
  | cons b rest =>
      obtain ⟨hdigit, hpoint⟩ := isDigit_of_isBreak hrest
      rw [List.dropWhile_cons_of_neg (by simp [hdigit]),
        takeWhile_digits hds (List.takeWhile_cons_of_neg (by simp [hdigit]))]
      simp [hpoint]

theorem numeral_fraction {ds fs rest : Bytes} {p : UInt8} (hds : ∀ x ∈ ds, isDigit x = true)
    (hp : Char.ofUInt8 p = '.') (hfs : ∀ x ∈ fs, isDigit x = true) (hne : fs ≠ [])
    (hrest : isBreak rest = true) : numeral (ds ++ p :: (fs ++ rest)) = ds ++ p :: fs := by
  -- the point ends the first run of digits, the break ends the second
  have hpoint : isDigit p = false := by
    rw [isDigit, hp]
    decide
  have hfraction : (fs ++ rest).takeWhile isDigit = fs := by
    apply takeWhile_digits hfs
    cases rest with
    | nil => rfl
    | cons b rest => exact List.takeWhile_cons_of_neg (by simp [(isDigit_of_isBreak hrest).1])
  unfold numeral
  rw [List.dropWhile_append_of_pos hds, List.dropWhile_cons_of_neg (by simp [hpoint]),
    takeWhile_digits hds (List.takeWhile_cons_of_neg (by simp [hpoint]))]
  simp [hp, hfraction, hne]

theorem lexeme?_of_isDigit {b : UInt8} (hb : isDigit b = true) (bs : Bytes) :
    lexeme? (b :: bs) = some (.number, numeral (b :: bs)) := by
  have hletter : isLetter b = false := isNameStart_of_isDigit hb
  simp [lexeme?, hletter, hb]

theorem IsNumeral.isDigit_or_eq {s : String} (h : IsNumeral s) :
    ∀ c ∈ s.toList, c.isDigit = true ∨ c = '.' := by
  rcases h with hs | ⟨whole, fraction, hw, hf, hs⟩
  · exact fun c hc => .inl (List.all_eq_true.mp hs.2 c hc)
  · rw [hs]
    intro c hc
    rcases List.mem_append.mp hc with hc | hc
    · exact .inl (List.all_eq_true.mp hw.2 c hc)
    · rcases List.mem_cons.mp hc with rfl | hc
      · exact .inr rfl
      · exact .inl (List.all_eq_true.mp hf.2 c hc)

theorem IsNumeral.ascii {s : String} (h : IsNumeral s) : ∀ c ∈ s.toList, c.toNat < 128 := by
  intro c hc
  rcases h.isDigit_or_eq c hc with hdigit | rfl
  · exact lt_of_isNameChar (by simp [isNameChar, hdigit])
  · decide

theorem lexeme?_numeral {s : String} (h : IsNumeral s) {rest : Bytes}
    (hrest : isBreak rest = true) :
    lexeme? (Bytes.ofString s ++ rest) = some (.number, Bytes.ofString s) := by
  have hmap := Bytes.map_ofString h.ascii
  -- the first digit decides for a numeral, the rest is how far it reaches
  have hlexeme : ∀ ds more, ds ≠ [] → (∀ x ∈ ds, isDigit x = true) →
      lexeme? (ds ++ more) = some (.number, numeral (ds ++ more)) := by
    intro ds more hne hds
    obtain ⟨b, ds', rfl⟩ := List.exists_cons_of_ne_nil hne
    exact lexeme?_of_isDigit (hds b List.mem_cons_self) _
  rcases h with hs | ⟨whole, fraction, hw, hf, hs⟩
  · rw [← hmap, isDigits_map_iff] at hs
    rw [hlexeme _ rest hs.1 hs.2, numeral_whole hs.2 hrest]
  · rw [hs] at hmap
    obtain ⟨ds, tail, hbytes, rfl, htail⟩ := List.map_eq_append_iff.mp hmap
    obtain ⟨p, fs, rfl, hp, rfl⟩ := List.map_eq_cons_iff.mp htail
    rw [isDigits_map_iff] at hw hf
    rw [hbytes, List.append_assoc, List.cons_append, hlexeme ds _ hw.1 hw.2,
      numeral_fraction hw.2 hp hf.2 hf.1 hrest]

/-! ## Symbols and blanks -/

def Kind.isSymbol (k : Kind) : Bool := Kind.symbols.contains k

/-- Symbols that no longer symbol starts with, whatever stands after them. -/
def Kind.isPunctuation : Kind → Bool
  | .semicolon | .comma | .lparen | .rparen | .lbrace | .rbrace => true
  | _ => false

theorem lexeme?_symbol_blank {k : Kind} (hk : k.isSymbol = true) (rest : Bytes) :
    lexeme? (Bytes.ofString k.name ++ 32 :: rest) = some (k, Bytes.ofString k.name) := by
  have hmem := List.contains_iff_mem.mp hk
  simp only [Kind.symbols, List.mem_cons, List.not_mem_nil, or_false] at hmem
  rcases hmem with rfl | rfl | rfl | rfl | rfl | rfl | rfl | rfl | rfl | rfl | rfl | rfl | rfl |
    rfl | rfl | rfl | rfl | rfl <;> rfl

theorem lexeme?_punctuation {k : Kind} (hk : k.isPunctuation = true) (rest : Bytes) :
    lexeme? (Bytes.ofString k.name ++ rest) = some (k, Bytes.ofString k.name) := by
  cases k with
  | semicolon | comma | lparen | rparen | lbrace | rbrace => rfl
  | _ => cases hk

theorem isBlank_iff {b : UInt8} : isBlank b = true ↔ b ∈ [32, 9, 13, 10, 12, 11] := by
  have h : ∀ v : BitVec 8, isBlank ⟨v⟩ = true ↔ (⟨v⟩ : UInt8) ∈ [32, 9, 13, 10, 12, 11] := by
    decide +kernel
  exact h b.toBitVec

/-- What holds of no blank tells bytes from blanks. -/
theorem isBlank_eq_false {p : UInt8 → Bool}
    (hp : ([32, 9, 13, 10, 12, 11].all fun b => !p b) = true) {b : UInt8} (h : p b = true) :
    isBlank b = false := by
  rw [Bool.eq_false_iff]
  intro hb
  have hnot := List.all_eq_true.mp hp b (isBlank_iff.mp hb)
  rw [h] at hnot
  cases hnot

theorem lexeme?_of_isBlank {b : UInt8} (h : isBlank b = true) (bs : Bytes) :
    lexeme? (b :: bs) = none := by
  have hb := isBlank_iff.mp h
  simp only [List.mem_cons, List.not_mem_nil, or_false] at hb
  rcases hb with rfl | rfl | rfl | rfl | rfl | rfl <;> rfl

end ThreeAddress
