import Mathlib.Data.List.DropRight
import ThreeAddress.Proofs.Lexing.Layout

/-!
# Blanks separate

A blank cuts a text in two that are read apart. No lexeme and no character has a
blank in it, so what is read in front of one is the same whatever stands behind
(`lexeme?_append_blank`, `Utf8.front_append_blank`), and behind it everything is
read as at the front of a text, only further on: `Location.shift` says how far.
-/

namespace ThreeAddress

/-! ## In front of a blank -/

theorem prefix_append_cons_iff {u x y : Bytes} {w : UInt8} (hw : w ∉ u) :
    u <+: x ++ w :: y ↔ u <+: x := by
  constructor
  · intro h
    rcases Nat.le_total u.length x.length with hle | hle
    · exact List.prefix_of_prefix_length_le h (List.prefix_append _ _) hle
    · -- what reaches past `x` ends with it, or else takes the byte behind it
      obtain ⟨v, rfl⟩ := List.prefix_of_prefix_length_le (List.prefix_append x (w :: y)) h hle
      cases v with
      | nil => simp
      | cons b v =>
          rw [List.prefix_append_right_inj, List.cons_prefix_cons] at h
          exact absurd (by simp [h.1]) hw
  · exact fun h => h.trans (List.prefix_append _ _)

theorem Longest.of_iff {s : String} {k : Kind} {bs bs' : Bytes} (h : Longest s k bs)
    (hsame : ∀ s k, Lexeme s k → (Bytes.ofString s <+: bs ↔ Bytes.ofString s <+: bs')) :
    Longest s k bs' :=
  ⟨h.lexeme, (hsame s k h.lexeme).mp h.front,
    fun s' k' hs' hfront => h.longest s' k' hs' ((hsame s' k' hs').mpr hfront)⟩

theorem lexeme?_of_longest {s : String} {k : Kind} {bs : Bytes} (h : Longest s k bs) :
    lexeme? bs = some (k, Bytes.ofString s) := by
  cases hfound : lexeme? bs with
  | none => exact absurd h.front (not_prefix_of_lexeme?_eq_none hfound h.lexeme)
  | some found =>
      obtain ⟨k', w⟩ := found
      obtain ⟨rfl, rfl⟩ := h.unique (longest_of_lexeme? hfound)
      rw [(lexeme_of_lexeme? hfound).2]

/-- What is found at the front of a text depends on nothing but the lexemes that
the text begins with. -/
theorem lexeme?_congr {bs bs' : Bytes}
    (hsame : ∀ s k, Lexeme s k → (Bytes.ofString s <+: bs ↔ Bytes.ofString s <+: bs')) :
    lexeme? bs = lexeme? bs' := by
  cases hfound : lexeme? bs with
  | some found =>
      have hlongest := longest_of_lexeme? hfound
      rw [lexeme?_of_longest (hlongest.of_iff hsame), (lexeme_of_lexeme? hfound).2]
  | none =>
      cases hfound' : lexeme? bs' with
      | none => rfl
      | some found' =>
          have hlongest := longest_of_lexeme? hfound'
          have hfront := (hsame _ _ hlongest.lexeme).mpr hlongest.front
          exact absurd hfront (not_prefix_of_lexeme?_eq_none hfound hlongest.lexeme)

/-- A lexeme does not reach over a blank. -/
theorem lexeme?_append_blank {w : UInt8} (hw : isBlank w = true) (x y : Bytes) :
    lexeme? (x ++ w :: y) = lexeme? x := by
  apply lexeme?_congr
  intro s k hs
  apply prefix_append_cons_iff
  intro hmem
  rw [hs.solid w hmem] at hw
  cases hw

/-- Nor does a character. -/
theorem Utf8.front_append_blank {w : UInt8} (hw : isBlank w = true) {x : Bytes} (hx : x ≠ [])
    (y : Bytes) : front (x ++ w :: y) = front x := by
  have hsame : ∀ c, String.utf8EncodeChar c <+: x ++ w :: y ↔ String.utf8EncodeChar c <+: x := by
    intro c
    by_cases hc : 128 ≤ c.toNat
    · apply prefix_append_cons_iff
      intro hmem
      have hhigh := le_of_mem_utf8EncodeChar hc hmem
      rw [isBlank_eq_false (p := (128 ≤ ·.toNat)) (by decide) (decide_eq_true hhigh)] at hw
      cases hw
    · -- a single byte lies in front of the blank, since something does
      obtain ⟨b, x', rfl⟩ := List.exists_cons_of_ne_nil hx
      rw [utf8EncodeChar_of_lt (by omega), List.cons_append, List.cons_prefix_cons,
        List.cons_prefix_cons]
      simp
  have hdecode : decode? (x ++ w :: y) = decode? x := by
    apply Option.ext
    intro c
    rw [decode?_eq_some_iff, decode?_eq_some_iff, hsame]
  rw [front, front, hdecode]

/-! ## Reading along a text -/

namespace Cursor

theorem after_past (c : Cursor) (n : Nat) :
    (c.past n).loc.after (c.past n).rest = c.loc.after c.rest := by
  rw [loc_past, rest_past, ← Location.after_append, List.take_append_drop]

/-- The cursor with more text at the end. -/
def append (c : Cursor) (more : Bytes) : Cursor := { c with rest := c.rest ++ more }

@[simp] theorem loc_append (c : Cursor) (more : Bytes) : (c.append more).loc = c.loc := rfl

theorem past_append {c : Cursor} {n : Nat} (hn : n ≤ c.rest.length) (more : Bytes) :
    (c.append more).past n = (c.past n).append more := by
  apply ext_loc
  · show (c.rest ++ more).drop n = c.rest.drop n ++ more
    exact List.drop_append_of_le_length hn
  · show ((c.append more).past n).loc = (c.past n).loc
    rw [loc_past, loc_past]
    show c.loc.after ((c.rest ++ more).take n) = _
    rw [List.take_append_of_le_length hn]

theorem head?_append {c : Cursor} {b : UInt8} (hb : c.rest.head? = some b) (more : Bytes) :
    (c.append more).rest.head? = some b := by
  rw [append, List.head?_append, hb]
  rfl

end Cursor

/-- One reading and then another: of the first, all but the end of input. -/
def Scans.andThen (s t : Scans) : Scans :=
  ⟨s.skipped ++ t.skipped, s.tokens.filter (·.kind ≠ .eof) ++ t.tokens, t.after⟩

theorem Cursor.all_append_blank {w : UInt8} (hw : isBlank w = true) (b : Bytes) (c : Cursor) :
    (c.append (w :: b)).all = c.all.andThen (ofLoc b ((c.loc.after c.rest).next w)).all := by
  induction c using reading_induction with
  | done c hrest =>
      have hcut : (c.append (w :: b)).past 1 = ofLoc b ((c.loc.after c.rest).next w) := by
        simp [append, past, hrest, Location.after]
        rfl
      rw [all_of_blank (by simp [append, hrest]) hw, hcut, all_of_end hrest]
      simp [Scans.andThen]
  | blank c b' hb' hblank ih =>
      rw [all_of_blank (head?_append hb' _) hblank, past_append (length_pos_of_head? hb'), ih,
        all_of_blank hb' hblank, after_past]
  | lexeme c k u hfound ih =>
      have hfound' : lexeme? (c.append (w :: b)).rest = some (k, u) := by
        rw [append, lexeme?_append_blank hw, hfound]
      rw [all_of_lexeme hfound', past_append (prefix_of_lexeme? hfound).length_le, ih,
        all_of_lexeme hfound, after_past]
      simp [Scans.andThen, lexeme?_kind_ne_eof hfound]
  | anomaly c b' hb' hblank hnone ih =>
      obtain ⟨bs, hrest⟩ := List.head?_eq_some_iff.mp hb'
      have hnone' : lexeme? (c.append (w :: b)).rest = none := by
        rw [append, lexeme?_append_blank hw, hnone]
      have hfront : Utf8.front (c.append (w :: b)).rest = Utf8.front c.rest :=
        Utf8.front_append_blank hw (by simp [hrest]) b
      rw [all_of_anomaly (head?_append hb' _) hblank hnone', hfront,
        past_append (front_width_le hb'), ih, all_of_anomaly hb' hblank hnone, after_past]
      simp [Scans.andThen]

/-! ## Behind a blank -/

/-- A location of a text when `front` stands before the text. Only on the first line
do columns change. -/
def Location.shift (front : Bytes) (l : Location) : Location where
  offset := l.offset + front.length
  line := l.line + front.count newline
  col := if l.line = 1 then l.col + (front.rtakeWhile (· ≠ newline)).length else l.col

def Token.shift (front : Bytes) (t : Token) : Token := { t with loc := t.loc.shift front }

def Anomaly.shift (front : Bytes) (a : Anomaly) : Anomaly := { a with loc := a.loc.shift front }

namespace Location

/-- The location behind a text, counted out. -/
theorem start_after (front : Bytes) : start.after front =
    ⟨front.length, 1 + front.count newline, (front.rtakeWhile (· ≠ newline)).length + 1⟩ := by
  induction front using List.reverseRecOn with
  | nil => rfl
  | append_singleton front b ih =>
      rw [after_append, ih, List.rtakeWhile_concat]
      show next _ b = _
      by_cases hb : b = newline
      · simp [next, hb]
        omega
      · simp [next, hb]

theorem shift_next {l : Location} (hl : 1 ≤ l.line) (front : Bytes) (b : UInt8) :
    (l.next b).shift front = (l.shift front).next b := by
  unfold next
  split
  · -- a new line is never the first one
    have hline : ¬ l.line + 1 = 1 := by omega
    simp only [shift, if_neg hline, mk.injEq, and_true]
    omega
  · by_cases hfirst : l.line = 1
    · simp only [shift, if_pos hfirst, mk.injEq, true_and]
      omega
    · simp only [shift, if_neg hfirst, mk.injEq, and_true]
      omega

/-- The location behind two texts is that behind the second, shifted by the first. -/
theorem start_after_append (front u : Bytes) :
    start.after (front ++ u) = (start.after u).shift front := by
  induction u using List.reverseRecOn with
  | nil =>
      rw [List.append_nil, start_after]
      simp [shift, after, start]
      omega
  | append_singleton u b ih =>
      have hline : 1 ≤ (start.after u).line := by
        rw [start_after]
        show 1 ≤ 1 + (u.count newline : Int)
        omega
      rw [← List.append_assoc, after_append, ih, after_append]
      exact (shift_next hline front b).symm

end Location

/-- The cursor when `front` stands before the text. -/
def Cursor.shift (front : Bytes) (c : Cursor) : Cursor := ofLoc c.rest (c.loc.shift front)

@[simp] theorem Cursor.rest_shift (front : Bytes) (c : Cursor) : (c.shift front).rest = c.rest := rfl

@[simp] theorem Cursor.loc_shift (front : Bytes) (c : Cursor) :
    (c.shift front).loc = c.loc.shift front := loc_ofLoc _ _

/-- Behind some text it makes no difference whether a cursor moves on first. -/
theorem Cursor.past_shift (front : Bytes) {c : Cursor} {u : Bytes}
    (hloc : c.loc = Location.start.after u) (n : Nat) :
    (c.shift front).past n = (c.past n).shift front := by
  apply ext_loc
  · rfl
  · rw [loc_past, loc_shift, loc_shift, loc_past, rest_shift, hloc, ← Location.start_after_append,
      ← Location.after_append, ← Location.after_append, ← Location.start_after_append,
      List.append_assoc]

/-- What is read off a text when `front` stands before the text. -/
def Scans.shift (front : Bytes) (s : Scans) : Scans :=
  ⟨s.skipped.map (.shift front), s.tokens.map (.shift front), s.after.shift front⟩

/-- Reading does not depend on where a text starts. -/
theorem Cursor.all_shift (front : Bytes) (c : Cursor) :
    ∀ u, c.loc = Location.start.after u → (c.shift front).all = c.all.shift front := by
  -- the locations met are those behind some text, where shifting is well-behaved
  have hbehind : ∀ (c : Cursor) (n : Nat) (u : Bytes), c.loc = Location.start.after u →
      (c.past n).loc = Location.start.after (u ++ c.rest.take n) := by
    intro c n u hloc
    rw [loc_past, hloc, Location.after_append]
  induction c using reading_induction with
  | done c hrest =>
      intro u hloc
      rw [all_of_end hrest, all_of_end (c := c.shift front) hrest]
      simp [Scans.shift, Token.shift]
  | blank c b hb hblank ih =>
      intro u hloc
      rw [all_of_blank (c := c.shift front) hb hblank, past_shift front hloc,
        ih _ (hbehind c 1 u hloc), all_of_blank hb hblank]
  | lexeme c k w hfound ih =>
      intro u hloc
      rw [all_of_lexeme (c := c.shift front) hfound, past_shift front hloc,
        ih _ (hbehind c w.length u hloc), all_of_lexeme hfound]
      simp [Scans.shift, Token.shift]
  | anomaly c b hb hblank hnone ih =>
      intro u hloc
      rw [all_of_anomaly (c := c.shift front) hb hblank hnone, past_shift front hloc, rest_shift,
        ih _ (hbehind c (Utf8.front c.rest).2 u hloc), all_of_anomaly hb hblank hnone]
      simp [Scans.shift, Anomaly.shift]

/-- Lexing splits at any blank. The tokens of a text with a blank in it are those in
front of the blank, less their end of input, and then those behind it, shifted by
what stands before them; and so are the anomalies. -/
theorem lexing_splits_at_blank (a b : Bytes) {w : UInt8} (hw : w ∈ [32, 9, 13, 10, 12, 11]) :
    tokenize (a ++ w :: b) =
      (tokenize a).filter (·.kind ≠ .eof) ++ (tokenize b).map (.shift (a ++ [w])) ∧
    anomalies (a ++ w :: b) = anomalies a ++ (anomalies b).map (.shift (a ++ [w])) := by
  have hblank : isBlank w = true := isBlank_iff.mpr hw
  have hback : (Cursor.ofLoc b ((Location.start.after a).next w)).all =
      (Cursor.ofBytes b).all.shift (a ++ [w]) := by
    rw [← Cursor.all_shift (a ++ [w]) (Cursor.ofBytes b) [] rfl]
    have hloc : (Location.start.after a).next w = Location.start.shift (a ++ [w]) := by
      have hshift := Location.start_after_append (a ++ [w]) []
      rw [List.append_nil, Location.after_append] at hshift
      exact hshift
    rw [hloc]
    rfl
  have hall : (Cursor.ofBytes (a ++ w :: b)).all =
      (Cursor.ofBytes a).all.andThen ((Cursor.ofBytes b).all.shift (a ++ [w])) :=
    (Cursor.all_append_blank hblank b (Cursor.ofBytes a)).trans (by rw [← hback]; rfl)
  rw [tokenize, anomalies, hall]
  exact ⟨rfl, rfl⟩

/-- The tab keeps the two bytes around it from making one character. -/
theorem stray_bytes_split_at_tab :
    (9 : UInt8) ∈ [32, 9, 13, 10, 12, 11] ∧
    tokenize ([120, 10, 49, 46, 195] ++ 9 :: [169, 61, 10, 121]) =
      [⟨.ident, "x", ⟨0, 1, 1⟩⟩, ⟨.number, "1", ⟨2, 2, 1⟩⟩] ++
        [⟨.assign, "=", ⟨7, 2, 6⟩⟩, ⟨.ident, "y", ⟨9, 3, 1⟩⟩, ⟨.eof, "", ⟨10, 3, 2⟩⟩] ∧
    anomalies ([120, 10, 49, 46, 195] ++ 9 :: [169, 61, 10, 121]) =
      [⟨'.', ⟨3, 2, 2⟩⟩, ⟨Utf8.replacement, ⟨4, 2, 3⟩⟩] ++ [⟨Utf8.replacement, ⟨6, 2, 5⟩⟩] := by
  have hsplit := lexing_splits_at_blank [120, 10, 49, 46, 195] [169, 61, 10, 121]
    (w := 9) (by decide)
  have hfront : tokenize [120, 10, 49, 46, 195] =
      [⟨.ident, "x", ⟨0, 1, 1⟩⟩, ⟨.number, "1", ⟨2, 2, 1⟩⟩, ⟨.eof, "", ⟨5, 2, 4⟩⟩] := by decide +kernel
  have hback : tokenize [169, 61, 10, 121] =
      [⟨.assign, "=", ⟨1, 1, 2⟩⟩, ⟨.ident, "y", ⟨3, 2, 1⟩⟩, ⟨.eof, "", ⟨4, 2, 2⟩⟩] := by decide +kernel
  have hfront' : anomalies [120, 10, 49, 46, 195] =
      [⟨'.', ⟨3, 2, 2⟩⟩, ⟨Utf8.replacement, ⟨4, 2, 3⟩⟩] := by decide +kernel
  have hback' : anomalies [169, 61, 10, 121] = [⟨Utf8.replacement, ⟨0, 1, 1⟩⟩] := by decide +kernel
  rw [hfront, hback, hfront', hback'] at hsplit
  refine ⟨by decide, hsplit.1.trans ?_, hsplit.2.trans ?_⟩
  · decide
  · decide

end ThreeAddress
