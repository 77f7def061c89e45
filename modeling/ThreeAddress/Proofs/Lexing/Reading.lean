import ThreeAddress.Program.Parser
import ThreeAddress.Proofs.Lexing.Lines

/-!
# Reading a text piece by piece

`c.Reads w c'` says that the tokens from `c` on are `w` and then the tokens from
`c'` on, and that nothing is skipped in between. Blanks and lexemes are read
one at a time, and readings that meet are put together.
-/

namespace ThreeAddress

namespace Cursor

/-! ## One token -/

/-- A token is the end of input or was read off the front of some text. -/
theorem next_token (c : Cursor) : c.next.token.kind = .eof ∨
    ∃ bs w, lexeme? bs = some (c.next.token.kind, w) ∧ c.next.token.text = Bytes.ascii w := by
  fun_induction next c with
  | case1 c => exact .inl rfl
  | case2 c b bs h hb ih => exact ih
  | case3 c b bs h hb kind word hw => exact .inr ⟨_, word, hw, rfl⟩
  | case4 c b bs h hb hw char s ih => exact ih

/-! ## All tokens -/

theorem all_of_next_eof {c : Cursor} (h : c.next.token.kind = .eof) :
    c.all = ⟨c.next.skipped, [c.next.token], c.next.after⟩ := by
  rw [all]
  simp [h]

theorem all_of_next {c : Cursor} (h : c.next.token.kind ≠ .eof) :
    c.all = ⟨c.next.skipped ++ c.next.after.all.skipped,
      c.next.token :: c.next.after.all.tokens, c.next.after.all.after⟩ := by
  rw [all]
  simp [h]

/-- A cursor whose next token is that of another, with more skipped on the way,
reads on as the other does. -/
theorem all_of_next_eq {c c' : Cursor} {met : List Anomaly}
    (h : c.next = { c'.next with skipped := met ++ c'.next.skipped }) :
    c.all = { c'.all with skipped := met ++ c'.all.skipped } := by
  by_cases heof : c'.next.token.kind = .eof
  · have heof' : c.next.token.kind = .eof := by rw [h]; exact heof
    rw [all_of_next_eof heof, all_of_next_eof heof', h]
  · have heof' : c.next.token.kind ≠ .eof := by rw [h]; exact heof
    rw [all_of_next heof, all_of_next heof', h, List.append_assoc]

theorem all_of_end {c : Cursor} (h : c.rest = []) : c.all = ⟨[], [⟨.eof, "", c.loc⟩], c⟩ := by
  have hnext := next_of_end h
  rw [all_of_next_eof (by rw [hnext]), hnext]

theorem all_of_blank {c : Cursor} {b : UInt8} (hb : c.rest.head? = some b)
    (hblank : isBlank b = true) : c.all = (c.past 1).all :=
  @all_of_next_eq c (c.past 1) [] (next_of_blank hb hblank)

theorem all_of_lexeme {c : Cursor} {k : Kind} {w : Bytes} (h : lexeme? c.rest = some (k, w)) :
    c.all = ⟨(c.past w.length).all.skipped,
      ⟨k, Bytes.ascii w, c.loc⟩ :: (c.past w.length).all.tokens,
      (c.past w.length).all.after⟩ := by
  have hnext := next_of_lexeme h
  rw [all_of_next (by rw [hnext]; exact lexeme?_kind_ne_eof h), hnext]
  rfl

theorem all_of_anomaly {c : Cursor} {b : UInt8} (hb : c.rest.head? = some b)
    (hblank : isBlank b = false) (h : lexeme? c.rest = none) :
    c.all = ⟨⟨(Utf8.front c.rest).1, c.loc⟩ :: (c.past (Utf8.front c.rest).2).all.skipped,
      (c.past (Utf8.front c.rest).2).all.tokens,
      (c.past (Utf8.front c.rest).2).all.after⟩ :=
  @all_of_next_eq c (c.past (Utf8.front c.rest).2) [⟨(Utf8.front c.rest).1, c.loc⟩]
    (next_of_anomaly hb hblank h)

theorem lexeme_of_mem_all {c : Cursor} {t : Token} (h : t ∈ c.all.tokens) : t.kind = .eof ∨
    ∃ bs w, lexeme? bs = some (t.kind, w) ∧ t.text = Bytes.ascii w := by
  fun_induction all c with
  | case1 c s hs =>
      rw [List.mem_singleton] at h
      subst h
      exact .inl hs
  | case2 c s hs more ih =>
      rcases List.mem_cons.mp h with rfl | h
      · exact next_token c
      · exact ih h

theorem exists_eof_mem_all (c : Cursor) : ∃ t ∈ c.all.tokens, t.kind = .eof := by
  fun_induction all c with
  | case1 c s hs => exact ⟨s.token, List.mem_singleton.mpr rfl, hs⟩
  | case2 c s hs more ih =>
      obtain ⟨t, ht, hkind⟩ := ih
      exact ⟨t, List.mem_cons_of_mem _ ht, hkind⟩

/-! ## Readings -/

structure Reads (c : Cursor) (w : List Token) (c' : Cursor) : Prop where
  proper : ∀ t ∈ w, t.kind ≠ .eof
  all_eq : c.all = ⟨c'.all.skipped, w ++ c'.all.tokens, c'.all.after⟩

theorem Reads.refl (c : Cursor) : c.Reads [] c := ⟨by simp, rfl⟩

theorem Reads.trans {c c' c'' : Cursor} {w v : List Token} (h : c.Reads w c')
    (h' : c'.Reads v c'') : c.Reads (w ++ v) c'' := by
  constructor
  · intro t ht
    rcases List.mem_append.mp ht with ht | ht
    · exact h.proper t ht
    · exact h'.proper t ht
  · rw [h.all_eq, h'.all_eq, List.append_assoc]

theorem reads_blank {b : UInt8} (h : isBlank b = true) (bs : Bytes) (loc : Location) :
    Reads (ofLoc (b :: bs) loc) [] (ofLoc bs (loc.next b)) := by
  have hpast : (ofLoc (b :: bs) loc).past 1 = ofLoc bs (loc.next b) :=
    past_ofLoc_append [b] bs loc
  exact ⟨by simp, by rw [all_of_blank rfl h, hpast]; rfl⟩

theorem reads_lexeme {k : Kind} {w rest : Bytes} (h : lexeme? (w ++ rest) = some (k, w))
    (loc : Location) :
    Reads (ofLoc (w ++ rest) loc) [⟨k, Bytes.ascii w, loc⟩] (ofLoc rest (loc.after w)) := by
  refine ⟨by simpa using lexeme?_kind_ne_eof h, ?_⟩
  rw [all_of_lexeme (c := ofLoc (w ++ rest) loc) h, past_ofLoc_append, loc_ofLoc]
  rfl

/-- A text that is read to its end has no other tokens, and no anomalies. -/
theorem Reads.all_of_end {c : Cursor} {w : List Token} {loc : Location}
    (h : c.Reads w (ofLoc [] loc)) : c.all = ⟨[], w ++ [⟨.eof, "", loc⟩], ofLoc [] loc⟩ := by
  rw [h.all_eq, Cursor.all_of_end rfl, loc_ofLoc]

end Cursor

theorem mem_of_mem_sentence {ts : List Token} {t : Token} (h : t ∈ sentence ts) : t ∈ ts :=
  (List.takeWhile_sublist _).subset h

theorem sentence_append_eof {w : List Token} (hw : ∀ t ∈ w, t.kind ≠ .eof) {last : Token}
    (hlast : last.kind = .eof) : sentence (w ++ [last]) = w := by
  rw [sentence, List.takeWhile_append_of_pos (by simpa using hw)]
  simp [hlast]

end ThreeAddress
