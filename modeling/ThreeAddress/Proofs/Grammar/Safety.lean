import ThreeAddress.Proofs.Grammar.Agreement

/-!
# The parser is safe

On all tokens, whatever their kinds and wherever an end of input stands among them,
the walk of the parser comes to an end with a tree or a syntax error, and its calls
are nested no deeper than five for each token. It never looks where there is no
token, never asks for a declaration where no type stands, and never goes past the
first end of input; what stands behind that is not read.
-/

namespace ThreeAddress

/-! ## Behind the end of input -/

/-- What stands behind the first end of input is not read. -/
theorem sentence_terminator_append {w : List Token} {last : Token} (hw : Proper w)
    (hlast : last.kind = .eof) (more : List Token) :
    sentence (w ++ last :: more) = w ∧ terminator (w ++ last :: more) = last := by
  have hnone : w.find? (·.kind = .eof) = none := by
    rw [List.find?_eq_none]
    simpa [Proper] using hw
  constructor
  · rw [sentence, List.takeWhile_append_of_pos (by simpa [Proper] using hw)]
    simp [hlast]
  · rw [terminator, List.find?_append, hnone]
    simp [hlast]

theorem parse_sentence_append (ts more : List Token) :
    parse (sentence ts ++ terminator ts :: more) = parse ts := by
  obtain ⟨hsentence, hterminator⟩ :=
    sentence_terminator_append (proper_sentence ts) (terminator_kind ts) more
  rw [parse, parse, hsentence, hterminator]

theorem parse_closed (ts : List Token) : parse (closed ts) = parse ts := by
  obtain ⟨more, hmore⟩ := exists_closed_eq ts
  rw [hmore, parse_sentence_append]

/-- Tokens that go on behind an end of input are read as if they did not. -/
theorem parse_of_prefix {w ts : List Token} {last : Token} (hlast : last.kind = .eof)
    (h : w ++ [last] <+: ts) : parse ts = parse (w ++ [last]) := by
  obtain ⟨more, rfl⟩ := h
  have heof : ∃ t ∈ w ++ [last], t.kind = .eof := ⟨last, by simp, hlast⟩
  obtain ⟨beyond, hw⟩ := exists_eq_sentence_append heof
  have hmore : (w ++ [last]) ++ more =
      sentence (w ++ [last]) ++ terminator (w ++ [last]) :: (beyond ++ more) := by
    rw [← List.cons_append, ← List.append_assoc, ← hw]
  rw [hmore, parse_sentence_append]

theorem token_mem_closed {ts : List Token} {e : SyntaxError} (h : parse ts = .error e) :
    e.token ∈ closed ts := by
  obtain ⟨more, hmore⟩ := exists_closed_eq ts
  rw [← parse_closed] at h
  refine token_mem_of_parse_error h ⟨terminator ts, ?_, terminator_kind ts⟩
  rw [hmore]
  simp

/-! ## The walk of the parser -/

namespace Tape

/-- The tape that the parser is given. -/
def ofTokens (ts : List Token) : Tape where
  input := sentence ts
  eof := terminator ts
  beyond := (closed ts).drop ((sentence ts).length + 1)
  proper := proper_sentence ts
  isEof := terminator_kind ts

theorem tokens_ofTokens (ts : List Token) : (ofTokens ts).tokens = closed ts := by
  obtain ⟨more, hmore⟩ := exists_closed_eq ts
  show sentence ts ++ terminator ts :: (closed ts).drop ((sentence ts).length + 1) = closed ts
  rw [hmore, List.drop_length_add_append, List.drop_succ_cons, List.drop_zero]

theorem outcome_tree (ts : List Token) :
    (ofTokens ts).outcome (Parser.whole (sentence ts) >>= fun p =>
      .ok (⟨((sentence ts).headD (terminator ts)).loc.offset, p.1.1, p.1.2⟩, p.2)) =
      (parse ts).mapError .syntaxError := by
  rw [parse, Parser.whole]
  cases Parser.program (sentence ts) with
  | error stuck => rfl
  | ok p => rfl

variable {T : Tape} {i : Nat}

theorem lt_length_tokens (h : i ≤ T.input.length) : i < T.tokens.length := by
  rw [tokens, List.length_append, List.length_cons]
  omega

theorem proper_take (h : i ≤ T.input.length) : Proper (T.tokens.take i) := by
  intro t ht
  rw [tokens, List.take_append_of_le_length h] at ht
  exact T.proper t (List.mem_of_mem_take ht)

end Tape

/-- The walk comes to an end, with the result of the parser, and does on its way what
the tape allows. -/
theorem exists_trace {ts : List Token} {depth : Nat} (hdepth : 5 * (closed ts).length ≤ depth) :
    ∃ trace, Walk.parse depth ts = ((parse ts).mapError .syntaxError, trace) ∧
      ∀ e ∈ trace, (Tape.ofTokens ts).Allows e := by
  have hlen : (sentence ts).length < (closed ts).length := by
    rw [← Tape.tokens_ofTokens]
    exact Tape.lt_length_tokens (Nat.le_refl _)
  have hagrees : (Tape.ofTokens ts).Agrees (Walk.tree depth) _ (sentence ts) :=
    Tape.tree_agrees (by omega)
  obtain ⟨done, hdone, -, hrun⟩ := hagrees (List.suffix_refl _)
  have hstart : (Tape.ofTokens ts).before (sentence ts) [] = ⟨closed ts, 0, []⟩ := by
    rw [Tape.before, Tape.place, Tape.tokens_ofTokens]
    exact congrArg (Walk.State.mk (closed ts) · []) (Nat.sub_self _)
  have hend := hrun []
  rw [hstart, List.nil_append] at hend
  refine ⟨done, ?_, hdone⟩
  rw [Walk.parse, hend, ← Tape.outcome_tree]
  rfl

/-- The parser is safe on all tokens. Its walk over them comes to an end, with the tree
or the syntax error of `parse` and for no other reason, once its calls may be nested
five deep for each token. It looks only where there is a token, and never comes past
the first end of input. Every round of a loop and every way into a block or a
parenthesis takes a token. The token to blame is one of the tokens, and what stands
behind an end of input makes no difference. -/
theorem parser_walks_safely (ts : List Token) :
    (∀ depth, 5 * (closed ts).length ≤ depth → ∃ trace,
      Walk.parse depth ts = ((parse ts).mapError .syntaxError, trace) ∧
      (∀ i, .look i ∈ trace → i < (closed ts).length) ∧
      (∀ i, .look i ∈ trace ∨ .move i ∈ trace → ∀ t ∈ (closed ts).take i, t.kind ≠ .eof) ∧
      ∀ start stop, .round start stop ∈ trace ∨ .descent start stop ∈ trace → start < stop) ∧
    (∀ e, parse ts = .error e → e.token ∈ closed ts) ∧
    ∀ us w last, last.kind = .eof → w ++ [last] <+: closed ts → w ++ [last] <+: closed us →
      parse us = parse ts := by
  refine ⟨fun depth hdepth => ?_, fun e => token_mem_closed, ?_⟩
  · obtain ⟨trace, hparse, hallows⟩ := exists_trace hdepth
    rw [← Tape.tokens_ofTokens]
    refine ⟨trace, hparse, ?_, ?_, ?_⟩
    · intro i hlook
      exact Tape.lt_length_tokens (hallows _ hlook)
    · rintro i (hlook | hmove)
      · exact Tape.proper_take (hallows _ hlook)
      · exact Tape.proper_take (hallows _ hmove)
    · rintro start stop (hround | hdescent)
      · exact hallows _ hround
      · exact hallows _ hdescent
  · intro us w last hlast hts hus
    rw [← parse_closed us, ← parse_closed ts, parse_of_prefix hlast hus, parse_of_prefix hlast hts]

/-- The tokens of `x=(y*z`, an end of input, and behind it a token of no known kind. -/
def brokenOff : List Token :=
  [⟨.ident, "x", ⟨0, 1, 1⟩⟩, ⟨.assign, "=", ⟨1, 1, 2⟩⟩, ⟨.lparen, "(", ⟨2, 1, 3⟩⟩,
    ⟨.ident, "y", ⟨3, 1, 4⟩⟩, ⟨.star, "*", ⟨4, 1, 5⟩⟩, ⟨.ident, "z", ⟨5, 1, 6⟩⟩,
    ⟨.eof, "", ⟨6, 1, 7⟩⟩, ⟨.other 200 (by decide), "?", ⟨9, 1, 10⟩⟩]

/-- What the walk over `brokenOff` does. -/
def brokenOffTrace : List Walk.Event :=
  [.look 0, .look 0, .look 0, .look 0, .look 0, .look 0, .move 1,
    .look 1, .look 1, .move 2, .look 2, .look 2, .move 3, .descent 2 3,
    .look 3, .look 3, .move 4, .look 4, .look 4, .move 5, .look 5, .look 5, .move 6, .round 4 6,
    .look 6, .look 6, .look 6, .look 6]

/-- The walk stays before the end of input, which is to blame, with or without the
token behind it. -/
theorem brokenOff_walks_safely :
    Walk.parse 45 brokenOff =
      (.error (.syntaxError ⟨.groupEnd, ⟨.eof, "", ⟨6, 1, 7⟩⟩⟩), brokenOffTrace) ∧
    (∀ i, .look i ∈ brokenOffTrace → i < (closed brokenOff).length) ∧
    (∀ i, .look i ∈ brokenOffTrace ∨ .move i ∈ brokenOffTrace →
      ∀ t ∈ (closed brokenOff).take i, t.kind ≠ .eof) ∧
    (∀ start stop, .round start stop ∈ brokenOffTrace ∨ .descent start stop ∈ brokenOffTrace →
      start < stop) ∧
    ⟨.eof, "", ⟨6, 1, 7⟩⟩ ∈ closed brokenOff ∧
    parse (brokenOff.take 7) = parse brokenOff := by
  have hwalk : Walk.parse 45 brokenOff =
      (.error (.syntaxError ⟨.groupEnd, ⟨.eof, "", ⟨6, 1, 7⟩⟩⟩), brokenOffTrace) := by decide +kernel
  have hparse : parse brokenOff = .error ⟨.groupEnd, ⟨.eof, "", ⟨6, 1, 7⟩⟩⟩ := by decide +kernel
  obtain ⟨hsafe, htoken, hbehind⟩ := parser_walks_safely brokenOff
  obtain ⟨trace, hsame, hlook, hvisit, hforward⟩ := hsafe 45 (by decide)
  obtain rfl : trace = brokenOffTrace := by
    rw [hwalk] at hsame
    exact (Prod.ext_iff.mp hsame).2.symm
  refine ⟨hwalk, hlook, hvisit, hforward, htoken _ hparse, ?_⟩
  exact hbehind (brokenOff.take 7) (brokenOff.take 6) ⟨.eof, "", ⟨6, 1, 7⟩⟩ rfl
    ⟨[⟨.other 200 (by decide), "?", ⟨9, 1, 10⟩⟩, Token.endOfInput], rfl⟩ ⟨[], rfl⟩

end ThreeAddress
