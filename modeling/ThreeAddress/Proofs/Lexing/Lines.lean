import ThreeAddress.Proofs.Lexing.Decoding

/-!
# Lines

A cursor looks for newlines among the blanks it passes and nowhere else. It keeps
count of lines all the same, since nothing else that it passes has a newline in it:
no lexeme has a blank in it (`lexeme?_solid`), and no character has one behind its
first byte (`Utf8.isBlank_of_frontIs`). `Cursor.past` counts every byte; a cursor
that passes a blank, a lexeme or an anomaly stands where that count leads
(`Cursor.next_of_blank`, `Cursor.next_of_lexeme`, `Cursor.next_of_anomaly`).
-/

namespace ThreeAddress

/-! ## What has no blank in it -/

theorem isBlank_of_isWordByte {b : UInt8} (h : isWordByte b = true) : isBlank b = false :=
  isBlank_eq_false (p := isWordByte) (by decide) h

theorem isBlank_of_isDigit {b : UInt8} (h : isDigit b = true) : isBlank b = false :=
  isBlank_of_isWordByte (by simp [isWordByte, h])

theorem numeral_solid (bs : Bytes) : ∀ b ∈ numeral bs, isBlank b = false := by
  have hdigits : ∀ ds : Bytes, ∀ b ∈ ds.takeWhile isDigit, isBlank b = false :=
    fun _ _ hb => isBlank_of_isDigit (List.mem_takeWhile_imp hb)
  unfold numeral
  intro b hb
  split at hb
  · rename_i point rest _
    split at hb
    · rename_i hpoint
      rcases List.mem_append.mp hb with hb | hb
      · exact hdigits _ b hb
      · rcases List.mem_cons.mp hb with rfl | hb
        · exact isBlank_eq_false (p := (Char.ofUInt8 · = '.')) (by decide)
            (decide_eq_true hpoint.1)
        · exact hdigits _ b hb
    · exact hdigits _ b hb
  · exact hdigits _ b hb

theorem symbolSpellings_solid :
    ∀ s ∈ symbolSpellings, (s.2.all fun b => !isBlank b) = true := by
  decide

/-- No lexeme has a blank in it. -/
theorem lexeme?_solid {bs w : Bytes} {k : Kind} (h : lexeme? bs = some (k, w)) :
    ∀ b ∈ w, isBlank b = false := by
  intro b hb
  unfold lexeme? at h
  split at h
  · cases h
  · split at h
    · cases h
      exact isBlank_of_isWordByte (List.mem_takeWhile_imp hb)
    · split at h
      · cases h
        exact numeral_solid _ b hb
      · have hsymbol := symbolSpellings_solid _ (List.mem_of_find?_eq_some h)
        simpa using List.all_eq_true.mp hsymbol b hb

theorem newline_not_mem {bs : Bytes} (h : ∀ b ∈ bs, isBlank b = false) : newline ∉ bs :=
  fun hmem => absurd (h newline hmem) (by decide)

/-! ## Counting every byte -/

namespace Location

/-- The place one byte further on. -/
def next (l : Location) (b : UInt8) : Location :=
  if b = newline then ⟨l.offset + 1, l.line + 1, 1⟩ else ⟨l.offset + 1, l.line, l.col + 1⟩

/-- The place after the given bytes. -/
def after (l : Location) (bs : Bytes) : Location := bs.foldl next l

theorem after_append (l : Location) (as bs : Bytes) :
    l.after (as ++ bs) = (l.after as).after bs := List.foldl_append

theorem after_of_newline_not_mem {bs : Bytes} (h : newline ∉ bs) (l : Location) :
    l.after bs = ⟨l.offset + bs.length, l.line, l.col + bs.length⟩ := by
  induction bs generalizing l with
  | nil => simp [after]
  | cons b bs ih =>
      rw [List.mem_cons, not_or] at h
      show (l.next b).after bs = _
      rw [ih h.2, next, if_neg (Ne.symm h.1)]
      simp only [mk.injEq, List.length_cons, true_and]
      omega

end Location

namespace Cursor

/-- The cursor before a text that begins at a place. -/
def ofLoc (rest : Bytes) (l : Location) : Cursor :=
  ⟨rest, l.offset, l.line, l.offset - l.col + 1⟩

@[simp] theorem rest_ofLoc (rest : Bytes) (l : Location) : (ofLoc rest l).rest = rest := rfl

@[simp] theorem loc_ofLoc (rest : Bytes) (l : Location) : (ofLoc rest l).loc = l := by
  show (⟨l.offset, l.line, l.offset - (l.offset - l.col + 1) + 1⟩ : Location) = l
  rw [show l.offset - (l.offset - l.col + 1) + 1 = l.col by omega]

/-- A cursor is known by what is left of the text and the place where it stands. -/
theorem ofLoc_loc (c : Cursor) : ofLoc c.rest c.loc = c := by
  show (⟨c.rest, c.offset, c.line, c.offset - (c.offset - c.lineStart + 1) + 1⟩ : Cursor) = c
  rw [show c.offset - (c.offset - c.lineStart + 1) + 1 = c.lineStart by omega]

theorem ofBytes_eq (text : Bytes) : ofBytes text = ofLoc text .start := rfl

theorem ext_loc {c c' : Cursor} (hrest : c.rest = c'.rest) (hloc : c.loc = c'.loc) : c = c' := by
  rw [← ofLoc_loc c, hrest, hloc, ofLoc_loc]

/-- The cursor `n` bytes further on, where every byte on the way has been counted. -/
def past (c : Cursor) (n : Nat) : Cursor :=
  ofLoc (c.rest.drop n) (c.loc.after (c.rest.take n))

@[simp] theorem rest_past (c : Cursor) (n : Nat) : (c.past n).rest = c.rest.drop n := rfl

@[simp] theorem loc_past (c : Cursor) (n : Nat) :
    (c.past n).loc = c.loc.after (c.rest.take n) := loc_ofLoc _ _

theorem past_past (c : Cursor) (m n : Nat) : (c.past m).past n = c.past (m + n) := by
  apply ext_loc
  · simp only [rest_past, List.drop_drop]
  · simp only [loc_past, rest_past, ← Location.after_append, ← List.take_add]

theorem past_ofLoc_append (u bs : Bytes) (l : Location) :
    (ofLoc (u ++ bs) l).past u.length = ofLoc bs (l.after u) := by
  rw [past, rest_ofLoc, loc_ofLoc, List.drop_left, List.take_left]

theorem past_shrinks {c : Cursor} {n : Nat} (hn : 0 < n) (hc : c.rest ≠ []) :
    (c.past n).rest.length < c.rest.length := drop_shrinks hn hc

/-- Where no newline is passed, the line stays as it is. -/
theorem advance_eq_past {c : Cursor} {n : Nat} (hn : n ≤ c.rest.length)
    (h : newline ∉ c.rest.take n) : c.advance n = c.past n := by
  apply ext_loc
  · rfl
  · rw [loc_past, Location.after_of_newline_not_mem h, List.length_take_of_le hn]
    show (⟨c.offset + n, c.line, c.offset + n - c.lineStart + 1⟩ : Location) =
      ⟨c.offset + n, c.line, c.offset - c.lineStart + 1 + n⟩
    rw [show c.offset + n - c.lineStart + 1 = c.offset - c.lineStart + 1 + n by omega]

/-- A blank is counted as any byte is. -/
theorem passBlank_eq_past {c : Cursor} {b : UInt8} (hb : c.rest.head? = some b) :
    c.passBlank b = c.past 1 := by
  obtain ⟨bs, hrest⟩ := List.head?_eq_some_iff.mp hb
  have htake : c.rest.take 1 = [b] := by rw [hrest]; rfl
  by_cases hnewline : b = newline
  · apply ext_loc
    · rw [rest_passBlank, rest_past]
    · rw [passBlank, if_pos hnewline, loc_past, htake]
      show (⟨c.offset + 1, c.line + 1, c.offset + 1 - (c.offset + 1) + 1⟩ : Location) =
        c.loc.next b
      rw [Location.next, if_pos hnewline, Int.sub_self]
      rfl
  · rw [passBlank, if_neg hnewline]
    refine advance_eq_past (by simp [hrest]) ?_
    rw [htake, List.mem_singleton]
    exact Ne.symm hnewline

/-! ## One token -/

variable {c : Cursor} {b : UInt8}

theorem length_pos_of_head? (hb : c.rest.head? = some b) : 1 ≤ c.rest.length := by
  obtain ⟨bs, hrest⟩ := List.head?_eq_some_iff.mp hb
  simp [hrest]

theorem front_width_le (hb : c.rest.head? = some b) : (Utf8.front c.rest).2 ≤ c.rest.length := by
  obtain ⟨bs, hrest⟩ := List.head?_eq_some_iff.mp hb
  rw [hrest]
  exact (Utf8.frontIs_front _).width_le

theorem next_of_end (h : c.rest = []) : c.next = ⟨[], ⟨.eof, "", c.loc⟩, c⟩ := by
  rw [next]
  split
  · rfl
  · rename_i hrest
    rw [h] at hrest
    cases hrest

/-- What is done at the first byte. -/
theorem next_of_cons {bs : Bytes} (h : c.rest = b :: bs) :
    c.next =
      if isBlank b then (c.passBlank b).next
      else
        match lexeme? c.rest with
        | some (kind, word) => ⟨[], ⟨kind, Bytes.ascii word, c.loc⟩, c.advance word.length⟩
        | none =>
          let s := (c.advance (Utf8.front c.rest).2).next
          { s with skipped := ⟨(Utf8.front c.rest).1, c.loc⟩ :: s.skipped } := by
  rw [next]
  split
  · rename_i hnil
    rw [h] at hnil
    cases hnil
  · rename_i hcons
    rw [h] at hcons
    cases hcons
    rewrite [h]
    rfl

theorem next_of_blank (hb : c.rest.head? = some b) (hblank : isBlank b = true) :
    c.next = (c.past 1).next := by
  obtain ⟨bs, hrest⟩ := List.head?_eq_some_iff.mp hb
  rw [next_of_cons hrest, if_pos hblank, passBlank_eq_past hb]

theorem next_of_lexeme {k : Kind} {w : Bytes} (h : lexeme? c.rest = some (k, w)) :
    c.next = ⟨[], ⟨k, Bytes.ascii w, c.loc⟩, c.past w.length⟩ := by
  have hfront := prefix_of_lexeme? h
  have hpast : c.advance w.length = c.past w.length := by
    refine advance_eq_past hfront.length_le ?_
    rw [← List.prefix_iff_eq_take.mp hfront]
    exact newline_not_mem (lexeme?_solid h)
  cases hrest : c.rest with
  | nil =>
      rw [hrest] at h
      cases h
  | cons b bs =>
      -- blanks are looked for first, so the lexeme must not start with one
      have hblank : ¬ isBlank b = true := by
        intro hb
        rw [hrest, lexeme?_of_isBlank hb] at h
        cases h
      rw [next_of_cons hrest, if_neg hblank, h, ← hpast]

theorem next_of_anomaly (hb : c.rest.head? = some b) (hblank : isBlank b = false)
    (h : lexeme? c.rest = none) :
    c.next =
      let s := (c.past (Utf8.front c.rest).2).next
      { s with skipped := ⟨(Utf8.front c.rest).1, c.loc⟩ :: s.skipped } := by
  obtain ⟨bs, hrest⟩ := List.head?_eq_some_iff.mp hb
  have hpast : c.advance (Utf8.front c.rest).2 = c.past (Utf8.front c.rest).2 := by
    refine advance_eq_past (front_width_le hb) ?_
    rw [hrest]
    exact newline_not_mem (Utf8.isBlank_of_frontIs (Utf8.frontIs_front _) hblank)
  rw [next_of_cons hrest, if_neg (by simp [hblank]), h, ← hpast]

/-- Induction along a reading: a cursor stands at the end, or before a blank, a
lexeme or an anomaly that it passes over next. -/
@[elab_as_elim]
theorem reading_induction {motive : Cursor → Prop}
    (done : ∀ c, c.rest = [] → motive c)
    (blank : ∀ c b, c.rest.head? = some b → isBlank b = true → motive (c.past 1) → motive c)
    (lexeme : ∀ c k w, lexeme? c.rest = some (k, w) → motive (c.past w.length) → motive c)
    (anomaly : ∀ c b, c.rest.head? = some b → isBlank b = false → lexeme? c.rest = none →
      motive (c.past (Utf8.front c.rest).2) → motive c) :
    ∀ c, motive c := by
  intro c
  induction hn : c.rest.length using Nat.strongRecOn generalizing c with
  | ind n ih =>
      subst hn
      cases hrest : c.rest with
      | nil => exact done c hrest
      | cons b bs =>
          have hne : c.rest ≠ [] := by simp [hrest]
          have hhead : c.rest.head? = some b := by simp [hrest]
          cases hblank : isBlank b with
          | true => exact blank c b hhead hblank (ih _ (past_shrinks Nat.one_pos hne) _ rfl)
          | false =>
              cases hfound : lexeme? c.rest with
              | some found =>
                  have hpos := List.length_pos_iff.mpr (lexeme?_ne_nil hfound)
                  exact lexeme c _ _ hfound (ih _ (past_shrinks hpos hne) _ rfl)
              | none =>
                  have hpos := Utf8.front_width_pos c.rest
                  exact anomaly c b hhead hblank hfound (ih _ (past_shrinks hpos hne) _ rfl)

end Cursor

end ThreeAddress
