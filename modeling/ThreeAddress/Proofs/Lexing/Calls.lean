import ThreeAddress.Proofs.Lexing.Blanking

/-!
# Calls on a lexer

A lexer can be asked for the next token or for all that are left, in any order and
as often as one likes. `Told text n told l` is what holds of it in between: it has
returned the tokens `told`, and what it reads from offset `n` on completes the tokens
of the text, or repeats the last of them. Reading a token keeps this (`Told.next`);
a call reads tokens one by one, so calls keep it too.
-/

namespace ThreeAddress

/-! ## One token -/

/-- Behind the end of input there is nothing but the end of input. -/
theorem Cursor.next_after_eof {c : Cursor} (h : c.next.token.kind = .eof) :
    c.next.after.next = ⟨[], c.next.token, c.next.after⟩ := by
  induction c using reading_induction with
  | done c hrest =>
      have hnext := next_of_end hrest
      rw [hnext]
      exact hnext
  | blank c b hb hblank ih =>
      rw [next_of_blank hb hblank] at h ⊢
      exact ih h
  | lexeme c k w hfound ih =>
      rw [next_of_lexeme hfound] at h
      exact absurd h (lexeme?_kind_ne_eof hfound)
  | anomaly c b hb hblank hnone ih =>
      rw [next_of_anomaly hb hblank hnone] at h ⊢
      exact ih h

namespace Reached

variable {text : Bytes} {n : Nat} {c : Cursor} {before : List Anomaly}

theorem offset_eq (h : Reached text n c before) : c.loc.offset = n := by
  rw [h.cursor, Cursor.loc_past_ofBytes]
  exact Location.offset_ofOffset h.inside

/-- An anomaly takes at least one byte. -/
theorem offset_lt (h : Reached text n c before) {a : Anomaly} (ha : a ∈ before) :
    a.loc.offset < n := by
  have hpos : 0 < (Item.anomaly a).width text := Utf8.front_width_pos _
  have hbehind : a.loc.offset + (Item.anomaly a).width text ≤ n := h.behind a ha
  omega

/-- A token is read behind all anomalies met on the way to it, and the reading goes
on behind the token. -/
theorem next (h : Reached text n c before) :
    ∃ m, Reached text m c.next.after (before ++ c.next.skipped) ∧
      n ≤ c.next.token.loc.offset ∧ c.next.token.loc.offset ≤ m ∧
      ∀ a ∈ before ++ c.next.skipped, a.loc.offset < c.next.token.loc.offset := by
  induction c using Cursor.reading_induction generalizing n before with
  | done c hrest =>
      have hoffset := h.offset_eq
      rw [Cursor.next_of_end hrest, List.append_nil]
      refine ⟨n, h, ?_, ?_, fun a ha => ?_⟩
      · exact Int.le_of_eq hoffset.symm
      · exact Int.le_of_eq hoffset
      · rw [hoffset]
        exact h.offset_lt ha
  | blank c b hb hblank ih =>
      have hskipped : c.all.skipped = (c.past 1).all.skipped := by
        rw [Cursor.all_of_blank hb hblank]
      rw [Cursor.next_of_blank hb hblank]
      obtain ⟨m, hm, hlow, hhigh, hmet⟩ := ih (h.pass (Cursor.length_pos_of_head? hb) hskipped)
      exact ⟨m, hm, by omega, hhigh, hmet⟩
  | lexeme c k w hfound ih =>
      have hskipped : c.all.skipped = (c.past w.length).all.skipped := by
        rw [Cursor.all_of_lexeme hfound]
      have hoffset := h.offset_eq
      rw [Cursor.next_of_lexeme hfound, List.append_nil]
      refine ⟨n + w.length, h.pass (prefix_of_lexeme? hfound).length_le hskipped, ?_, ?_, ?_⟩
      · exact Int.le_of_eq hoffset.symm
      · show c.loc.offset ≤ _
        omega
      · intro a ha
        show a.loc.offset < c.loc.offset
        rw [hoffset]
        exact h.offset_lt ha
  | anomaly c b hb hblank hnone ih =>
      have hskip := h.skip hb hblank hnone (Cursor.front_width_le hb)
      obtain ⟨m, hm, hlow, hhigh, hmet⟩ := ih hskip
      rw [List.append_assoc] at hm hmet
      rw [Cursor.next_of_anomaly hb hblank hnone]
      exact ⟨m, hm, Int.le_trans (by omega) hlow, hhigh, hmet⟩

end Reached

/-! ## A lexer between calls -/

/-- The end of input of a text. -/
def ending (text : Bytes) : Token := ⟨.eof, "", .ofOffset text text.length⟩

theorem getLast?_tokenize (text : Bytes) : (tokenize text).getLast? = some (ending text) := by
  obtain ⟨init, htokens, -⟩ := tokenize_end text
  rw [htokens, List.getLast?_concat]
  rfl

theorem anomalies_increasing (text : Bytes) :
    (anomalies text).Pairwise fun a b => a.loc.offset < b.loc.offset := by
  obtain ⟨xs, hlaid, -, hskipped⟩ := exists_laid text (Nat.zero_le _)
  have hanomalies : xs.filterMap Item.anomaly? = anomalies text := hskipped
  rw [← hanomalies, List.pairwise_filterMap]
  refine hlaid.ordered.imp ?_
  rintro x y ⟨hlt, -⟩ a ha b hb
  rw [Item.anomaly?_eq_some_iff] at ha hb
  subst ha hb
  exact hlt

namespace Lexer

/-- The lexer of the text has returned the tokens `told`, and stands behind the last
of them. The anomalies it has recorded lie in front of that token. -/
structure Told (text : Bytes) (n : Nat) (told : List Token) (l : Lexer) : Prop where
  reached : Reached text n l.cursor l.anomalies
  tokens : ∃ k, told ++ l.cursor.all.tokens = tokenize text ++ List.replicate k (ending text)
  last : ∀ t, told.getLast? = some t →
    t.loc.offset ≤ n ∧ ∀ a ∈ l.anomalies, a.loc.offset < t.loc.offset

variable {text : Bytes} {n : Nat} {told : List Token} {l : Lexer}

theorem told_nil (text : Bytes) : Told text 0 [] (ofBytes text) where
  reached := ⟨Nat.zero_le _, rfl, rfl, fun _ ha => absurd ha List.not_mem_nil⟩
  tokens := ⟨0, by rw [List.replicate_zero, List.append_nil]; rfl⟩
  last := by
    intro t ht
    cases ht

/-- Reading one token more. -/
theorem Told.next (h : Told text n told l) : ∃ m, Told text m (told ++ [l.next.1]) l.next.2 := by
  obtain ⟨m, hreached, -, hoffset, hmet⟩ := h.reached.next
  refine ⟨m, hreached, ?_, ?_⟩
  · obtain ⟨k, hk⟩ := h.tokens
    show ∃ k, (told ++ [l.cursor.next.token]) ++ l.cursor.next.after.all.tokens = _
    by_cases heof : l.cursor.next.token.kind = .eof
    · -- the end of input is left to be read once more
      rw [Cursor.all_of_next_eof heof] at hk
      have hlast : l.cursor.next.token = ending text := by
        have hgetLast := congrArg List.getLast? hk
        rw [List.getLast?_concat, List.getLast?_append, List.getLast?_replicate,
          getLast?_tokenize] at hgetLast
        split at hgetLast <;> simpa using hgetLast
      have hagain := Cursor.next_after_eof heof
      refine ⟨k + 1, ?_⟩
      rw [Cursor.all_of_next_eof (by rw [hagain]; exact heof), hagain, hk, hlast,
        List.append_assoc, List.replicate_succ']
    · rw [Cursor.all_of_next heof] at hk
      exact ⟨k, by rw [List.append_assoc]; exact hk⟩
  · intro t ht
    rw [List.getLast?_concat, Option.some.injEq] at ht
    subst ht
    exact ⟨hoffset, hmet⟩

/-- The recorded anomalies are those in front of the last token returned. -/
theorem Told.anomalies_eq (h : Told text n told l) {t : Token} (ht : told.getLast? = some t) :
    l.anomalies = (ThreeAddress.anomalies text).filter (·.loc.offset < t.loc.offset) := by
  obtain ⟨hle, hmet⟩ := h.last t ht
  have hlater : ∀ a ∈ l.cursor.all.skipped, n ≤ a.loc.offset := by
    intro a ha
    rw [h.reached.cursor] at ha
    exact le_offset_of_mem_skipped h.reached.inside ha
  rw [h.reached.skipped, List.filter_append, List.filter_eq_self.mpr, List.filter_eq_nil_iff.mpr,
    List.append_nil]
  · intro a ha
    have := hlater a ha
    rw [decide_eq_true_iff]
    omega
  · intro a ha
    exact decide_eq_true (hmet a ha)

theorem Told.nodup (h : Told text n told l) : l.anomalies.Nodup := by
  have hincreasing := anomalies_increasing text
  rw [h.reached.skipped, List.pairwise_append] at hincreasing
  refine hincreasing.1.imp ?_
  rintro a b hlt rfl
  omega

/-! ## All tokens that are left -/

theorem all_of_next_eof (h : l.next.1.kind = .eof) : l.all = ([l.next.1], l.next.2) := by
  rw [all, next, Cursor.all_of_next_eof h]

theorem all_of_next (h : l.next.1.kind ≠ .eof) :
    l.all = (l.next.1 :: l.next.2.all.1, l.next.2.all.2) := by
  rw [all, all, next, Cursor.all_of_next h, List.append_assoc]

/-- Induction along the tokens that are left: the end of input comes next, or another
token does. -/
@[elab_as_elim]
theorem next_induction {motive : Lexer → Prop}
    (eof : ∀ l : Lexer, l.next.1.kind = .eof → motive l)
    (more : ∀ l : Lexer, l.next.1.kind ≠ .eof → motive l.next.2 → motive l) :
    ∀ l, motive l := by
  intro l
  induction hlen : l.cursor.rest.length using Nat.strongRecOn generalizing l with
  | ind len ih =>
      subst hlen
      by_cases heof : l.next.1.kind = .eof
      · exact eof l heof
      · exact more l heof (ih _ (Cursor.next_shrinks heof) _ rfl)

theorem Told.all (h : Told text n told l) : ∃ m, Told text m (told ++ l.all.1) l.all.2 := by
  induction l using next_induction generalizing n told with
  | eof l heof =>
      rw [all_of_next_eof heof]
      exact h.next
  | more l heof ih =>
      obtain ⟨m, hm⟩ := h.next
      rw [all_of_next heof, List.append_cons]
      exact ih hm

/-- The end of input comes last, and only there. -/
theorem all_ends (l : Lexer) :
    ∃ init last, l.all.1 = init ++ [last] ∧ last.kind = .eof ∧ ∀ t ∈ init, t.kind ≠ .eof := by
  induction l using next_induction with
  | eof l heof =>
      rw [all_of_next_eof heof]
      exact ⟨[], l.next.1, rfl, heof, fun _ ht => absurd ht List.not_mem_nil⟩
  | more l heof ih =>
      obtain ⟨init, last, hall, hlast, hinit⟩ := ih
      rw [all_of_next heof, hall]
      exact ⟨l.next.1 :: init, last, rfl, hlast, List.forall_mem_cons.mpr ⟨heof, hinit⟩⟩

/-! ## Calls -/

/-- A call on a lexer: for one token, or for all up to the end of input. -/
inductive Call where
  | next | all

/-- What a call returns, and the lexer after it. -/
def answer (l : Lexer) : Call → List Token × Lexer
  | .next => ([l.next.1], l.next.2)
  | .all => l.all

/-- What each of the calls returns, and the lexer after each. -/
def answers (l : Lexer) : List Call → List (List Token × Lexer)
  | [] => []
  | call :: calls => l.answer call :: (l.answer call).2.answers calls

theorem length_answers (l : Lexer) (calls : List Call) :
    (l.answers calls).length = calls.length := by
  induction calls generalizing l with
  | nil => rfl
  | cons call calls ih => simp [answers, ih]

theorem Told.answer (h : Told text n told l) (call : Call) :
    ∃ m, Told text m (told ++ (l.answer call).1) (l.answer call).2 := by
  cases call with
  | next => exact h.next
  | all => exact h.all

theorem answer_ne_nil (l : Lexer) (call : Call) : (l.answer call).1 ≠ [] := by
  cases call with
  | next => exact List.cons_ne_nil _ _
  | all =>
      obtain ⟨init, last, hall, -⟩ := all_ends l
      show l.all.1 ≠ []
      simp [hall]

/-- Calls one after the other. -/
theorem Told.answers (h : Told text n told l) (calls : List Call) :
    ∃ m l', Told text m (told ++ (l.answers calls).flatMap Prod.fst) l' := by
  induction calls generalizing n told l with
  | nil =>
      rw [Lexer.answers, List.flatMap_nil, List.append_nil]
      exact ⟨n, l, h⟩
  | cons call calls ih =>
      obtain ⟨m, hm⟩ := h.answer call
      rw [Lexer.answers, List.flatMap_cons, ← List.append_assoc]
      exact ih hm

/-- Each call finds a lexer of the text. -/
theorem Told.of_getElem?_answers (h : Told text n told l) {calls : List Call} {i : Nat}
    {call : Call} {returned : List Token} {after : Lexer} (hcall : calls[i]? = some call)
    (hanswer : (l.answers calls)[i]? = some (returned, after)) :
    ∃ m told' l', Told text m told' l' ∧ l'.answer call = (returned, after) := by
  induction calls generalizing n told l i with
  | nil => cases hcall
  | cons first calls ih =>
      cases i with
      | zero =>
          cases hcall
          exact ⟨n, told, l, h, Option.some.inj hanswer⟩
      | succ i =>
          obtain ⟨m, hm⟩ := h.answer first
          exact ih hm hcall hanswer

/-- The anomalies recorded after a call. -/
theorem Told.anomalies_of_answer (h : Told text n told l) {call : Call} {returned : List Token}
    {after : Lexer} (hanswer : l.answer call = (returned, after)) :
    ∃ last, returned.getLast? = some last ∧
      after.anomalies = (ThreeAddress.anomalies text).filter (·.loc.offset < last.loc.offset) ∧
      after.anomalies.Nodup := by
  obtain ⟨m, hm⟩ := h.answer call
  have hne := answer_ne_nil l call
  rw [hanswer] at hm hne
  have hlast := List.getLast?_eq_some_getLast hne
  refine ⟨returned.getLast hne, hlast, hm.anomalies_eq ?_, hm.nodup⟩
  rw [List.getLast?_append, hlast]
  rfl

end Lexer

open Lexer in
/-- Calls on a lexer can be mixed freely. Whatever is called in whatever order, the
tokens returned are, one call after the other, those of the text and then its end of
input over and over. A call for all tokens returns the end of input once, at the end.
After each call the anomalies recorded are those of the text that lie in front of the
last token returned, each once. -/
theorem lexer_calls_mix_freely (text : Bytes) (calls : List Call) :
    ((ofBytes text).answers calls).length = calls.length ∧
    (∃ last k, (tokenize text).getLast? = some last ∧ last.kind = .eof ∧
      ((ofBytes text).answers calls).flatMap Prod.fst <+:
        tokenize text ++ List.replicate k last) ∧
    ∀ (i : Nat) (call : Call) (returned : List Token) (after : Lexer), calls[i]? = some call →
      ((ofBytes text).answers calls)[i]? = some (returned, after) →
      (call = .all → ∃ init last, returned = init ++ [last] ∧ last.kind = .eof ∧
        ∀ t ∈ init, t.kind ≠ .eof) ∧
      ∃ last, returned.getLast? = some last ∧
        after.anomalies = (anomalies text).filter (·.loc.offset < last.loc.offset) ∧
        after.anomalies.Nodup := by
  refine ⟨length_answers _ _, ?_, ?_⟩
  · obtain ⟨m, l, htold⟩ := (told_nil text).answers calls
    obtain ⟨k, hk⟩ := htold.tokens
    refine ⟨ending text, k, getLast?_tokenize text, rfl, ?_⟩
    rw [← hk]
    exact List.prefix_append _ _
  · intro i call returned after hcall hanswer
    obtain ⟨m, told, l, htold, hcalled⟩ := (told_nil text).of_getElem?_answers hcall hanswer
    refine ⟨?_, htold.anomalies_of_answer hcalled⟩
    rintro rfl
    obtain ⟨init, last, hall, hends⟩ := all_ends l
    have hreturned : l.all.1 = returned := congrArg Prod.fst hcalled
    exact ⟨init, last, hreturned ▸ hall, hends⟩

/-- A name, and behind it a character of two bytes between blanks. -/
def trailing : Bytes := [97, 32, 195, 169, 32]

open Lexer in
/-- The end of input is returned three times, and the character is recorded once. -/
theorem trailing_calls_mix_freely :
    let calls : List Call := [.next, .all, .next, .all]
    let name : Token := ⟨.ident, "a", ⟨0, 1, 1⟩⟩
    let eof : Token := ⟨.eof, "", ⟨5, 1, 6⟩⟩
    let after : Lexer := ⟨⟨[], 5, 1, 0⟩, [⟨'é', ⟨2, 1, 3⟩⟩]⟩
    ((ofBytes trailing).answers calls).flatMap Prod.fst = [name, eof, eof, eof] ∧
    ((ofBytes trailing).answers calls)[3]? = some ([eof], after) ∧
    (∃ init last, [eof] = init ++ [last] ∧ last.kind = .eof ∧ ∀ t ∈ init, t.kind ≠ .eof) ∧
    ∃ last, [eof].getLast? = some last ∧
      after.anomalies = (anomalies trailing).filter (·.loc.offset < last.loc.offset) ∧
      after.anomalies.Nodup := by
  intro calls name eof after
  have hreturned : ((ofBytes trailing).answers calls).flatMap Prod.fst = [name, eof, eof, eof] := by
    decide +kernel
  have hanswer : ((ofBytes trailing).answers calls)[3]? = some ([eof], after) := by decide +kernel
  obtain ⟨-, -, hcalls⟩ := lexer_calls_mix_freely trailing calls
  obtain ⟨hends, hmet⟩ := hcalls 3 .all [eof] after rfl hanswer
  exact ⟨hreturned, hanswer, hends rfl, hmet⟩

end ThreeAddress
