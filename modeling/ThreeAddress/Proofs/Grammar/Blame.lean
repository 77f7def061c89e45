import ThreeAddress.Proofs.Grammar.Completeness
import ThreeAddress.Proofs.Lexing.Reading

/-!
# The token to blame

A syntax error names the first token that makes the input hopeless. The tokens
before it can still be continued to a program; with it they cannot, whatever
comes next.
-/

namespace ThreeAddress

/-! ## Sentences and the end of input -/

/-- No token is an end of input. -/
def Proper (w : List Token) : Prop := ∀ t ∈ w, t.kind ≠ .eof

@[simp] theorem proper_nil : Proper [] := by simp [Proper]

@[simp] theorem proper_cons {t : Token} {w : List Token} :
    Proper (t :: w) ↔ t.kind ≠ .eof ∧ Proper w :=
  List.forall_mem_cons

@[simp] theorem proper_append {w v : List Token} : Proper (w ++ v) ↔ Proper w ∧ Proper v :=
  List.forall_mem_append

namespace Grammar

theorem SumOp.ne_eof {k : Kind} {op : Op} (h : SumOp k op) : k ≠ .eof := by
  cases h <;> decide

theorem ProductOp.ne_eof {k : Kind} {op : Op} (h : ProductOp k op) : k ≠ .eof := by
  cases h <;> decide

theorem RelOp.ne_eof {k : Kind} {op : Op} (h : RelOp k op) : k ≠ .eof := by
  cases h <;> decide

theorem TypeWord.ne_eof {k : Kind} {ty : Ty} (h : TypeWord k ty) : k ≠ .eof := by
  cases h <;> decide

theorem Phrase.proper {level : Level} {w : List Token} {x : Expr} (h : Phrase level w x) :
    Proper w := by
  induction h with
  | ident hkind => simp [hkind]
  | number hkind => simp [hkind]
  | group hopen _ hclose ih => simp [hopen, ih, hclose]
  | term _ ih => exact ih
  | product _ hop _ ihx ihy => simp [ihx, hop.ne_eof, ihy]
  | expr _ ih => exact ih
  | sum _ hop _ ihx ihy => simp [ihx, hop.ne_eof, ihy]

theorem Relation.proper {w : List Token} {x : Expr} (h : Relation w x) : Proper w := by
  cases h with
  | compare hx hop hy => simp [hx.proper, hop.ne_eof, hy.proper]

theorem Derives.proper {symbol : Symbol} {w : List Token} {tree : symbol.Tree}
    (h : Derives symbol w tree) : Proper w := by
  induction h with
  | assign hname hsign hx hsemi => simp [hname, hsign, hx.proper, hsemi]
  | loop hkey hopen hx hclose _ ih => simp [hkey, hopen, hx.proper, hclose, ih]
  | branch hkey hopen hx hclose _ ih => simp [hkey, hopen, hx.proper, hclose, ih]
  | branchElse hkey hopen hx hclose _ helse _ ihTrue ihFalse =>
      simp [hkey, hopen, hx.proper, hclose, ihTrue, helse, ihFalse]
  | nil => exact proper_nil
  | cons _ _ ihs ihss => exact proper_append.mpr ⟨ihs, ihss⟩
  | block hopen _ hclose ih => simp [hopen, ih, hclose]

theorem Names.proper {w : List Token} {ns : List String} (h : Names w ns) : Proper w := by
  induction h with
  | one hident => simp [hident]
  | more hident hcomma _ ih => simp [hident, hcomma, ih]

theorem Declarations.proper {w : List Token} {ds : List Decl} (h : Declarations w ds) :
    Proper w := by
  induction h with
  | nil => exact proper_nil
  | cons hty hnames hsemi _ ih => simp [hty.ne_eof, hnames.proper, hsemi, ih]

theorem Sentence.proper {w : List Token} {p : Program} (h : Sentence w p) : Proper w := by
  cases h with
  | plain hss => exact hss.proper
  | declared hkey hds hss => simp [hkey, hds.proper, hss.proper]

end Grammar

theorem proper_sentence (ts : List Token) : Proper (sentence ts) := by
  intro t ht
  simpa using List.mem_takeWhile_imp ht

theorem terminator_kind (ts : List Token) : (terminator ts).kind = .eof := by
  unfold terminator
  cases hfind : ts.find? (·.kind = .eof) with
  | none => rfl
  | some t => simpa using List.find?_some hfind

/-- Tokens that bring an end of input: what stands before it is the input proper. -/
theorem exists_eq_sentence_append {ts : List Token} (h : ∃ t ∈ ts, t.kind = .eof) :
    ∃ more, ts = sentence ts ++ terminator ts :: more := by
  induction ts with
  | nil => simp at h
  | cons t ts ih =>
      by_cases ht : t.kind = .eof
      · exact ⟨ts, by simp [sentence, terminator, ht]⟩
      · obtain ⟨more, hmore⟩ := ih (by simpa [ht] using h)
        refine ⟨more, ?_⟩
        have hsentence : sentence (t :: ts) = t :: sentence ts := by simp [sentence, ht]
        have hterminator : terminator (t :: ts) = terminator ts := by simp [terminator, ht]
        rw [hsentence, hterminator, List.cons_append, ← hmore]

theorem sentence_of_proper {ts : List Token} (h : Proper ts) : sentence ts = ts := by
  rw [sentence, List.takeWhile_eq_self_iff]
  simpa [Proper] using h

theorem terminator_of_proper {ts : List Token} (h : Proper ts) :
    terminator ts = Token.endOfInput := by
  have hnone : ts.find? (·.kind = .eof) = none := by
    rw [List.find?_eq_none]
    simpa [Proper] using h
  rw [terminator, hnone]
  rfl

/-- The tokens, and an end of input behind them unless the last one is one. -/
def closed (ts : List Token) : List Token :=
  if ts.getLast?.any (·.kind = .eof) then ts else ts ++ [Token.endOfInput]

/-- Closed tokens are the input proper, an end of input, and what nobody reads. -/
theorem exists_closed_eq (ts : List Token) :
    ∃ more, closed ts = sentence ts ++ terminator ts :: more := by
  by_cases heof : ∃ t ∈ ts, t.kind = .eof
  · obtain ⟨more, hmore⟩ := exists_eq_sentence_append heof
    unfold closed
    split
    · exact ⟨more, hmore⟩
    · refine ⟨more ++ [Token.endOfInput], ?_⟩
      rw [← List.cons_append, ← List.append_assoc, ← hmore]
  · have hproper : Proper ts := by simpa [Proper] using heof
    refine ⟨[], ?_⟩
    rw [sentence_of_proper hproper, terminator_of_proper hproper, closed, if_neg]
    cases hlast : ts.getLast? with
    | none => simp
    | some t => simpa using hproper t (List.mem_of_getLast? hlast)

/-! ## Hopeless input -/

/-- The tokens can be continued to a sentence with an end of input behind it. -/
def Viable (w : List Token) : Prop :=
  ∃ more body last p, w ++ more = body ++ [last] ∧ Grammar.Sentence body p ∧ last.kind = .eof

theorem viable_of_sentence {w more : List Token} {p : Program}
    (h : Grammar.Sentence (w ++ more) p) : Viable w :=
  ⟨more ++ [Token.endOfInput], w ++ more, Token.endOfInput, p, by simp, h, rfl⟩

/-- Tokens up to one that is no end of input can be continued only if some sentence
starts with them. -/
theorem sentence_of_viable {w : List Token} {t : Token} (ht : t.kind ≠ .eof)
    (h : Viable (w ++ [t])) : ∃ more p, Grammar.Sentence (w ++ t :: more) p := by
  obtain ⟨more, body, last, p, heq, hbody, hlast⟩ := h
  rcases List.eq_nil_or_concat more with rfl | ⟨more, last', rfl⟩
  · -- nothing follows, so the token itself would be the end
    rw [List.append_nil] at heq
    obtain ⟨-, rfl⟩ := List.append_singleton_inj.mp heq
    exact absurd hlast ht
  · rw [List.concat_eq_append, ← List.append_assoc] at heq
    obtain ⟨rfl, -⟩ := List.append_singleton_inj.mp heq
    rw [List.append_assoc] at hbody
    exact ⟨more, p, hbody⟩

/-- Tokens up to an end of input can be continued only if they are a sentence. -/
theorem sentence_of_viable_eof {w : List Token} {t : Token} (ht : t.kind = .eof)
    (h : Viable (w ++ [t])) : ∃ p, Grammar.Sentence w p := by
  obtain ⟨more, body, last, p, heq, hbody, -⟩ := h
  rcases List.eq_nil_or_concat more with rfl | ⟨more, last', rfl⟩
  · rw [List.append_nil] at heq
    obtain ⟨rfl, -⟩ := List.append_singleton_inj.mp heq
    exact ⟨p, hbody⟩
  · -- otherwise the end of input would be part of the sentence
    rw [List.concat_eq_append, ← List.append_assoc] at heq
    obtain ⟨rfl, -⟩ := List.append_singleton_inj.mp heq
    exact absurd ht (hbody.proper t (by simp))

/-- Where a program is stuck: no sentence starts with what was taken and goes on
as the tokens there do. -/
theorem hopeless_of_program_error {ts : List Token} {stuck : Parser.Stuck}
    (h : Parser.program ts = .error stuck) :
    ∃ w, ts = w ++ stuck.rest ∧ (∃ more p, Grammar.Sentence (w ++ more) p) ∧
      ∀ us p, us.head? = stuck.rest.head? → ¬ Grammar.Sentence (w ++ us) p := by
  obtain ⟨w, hts, hbegins, hagain⟩ := Parser.stuck_of_program_error h
  refine ⟨w, hts, hbegins, fun us p hus hsentence => ?_⟩
  obtain ⟨ds, ss, hread, -⟩ := Parser.program_read hsentence
  rw [hagain us hus] at hread
  cases hread

theorem parse_eq_error {ts : List Token} {e : SyntaxError} (h : parse ts = .error e) :
    ∃ stuck, Parser.program (sentence ts) = .error stuck ∧
      e = ⟨stuck.reason, stuck.rest.headD (terminator ts)⟩ := by
  unfold parse at h
  split at h
  · rename_i stuck hstuck
    cases h
    exact ⟨stuck, hstuck, rfl⟩
  · cases h

/-- The token to blame is one of the tokens, if these bring an end of input. -/
theorem token_mem_of_parse_error {ts : List Token} {e : SyntaxError} (h : parse ts = .error e)
    (heof : ∃ t ∈ ts, t.kind = .eof) : e.token ∈ ts := by
  obtain ⟨stuck, hstuck, rfl⟩ := parse_eq_error h
  obtain ⟨w, hts, -⟩ := hopeless_of_program_error hstuck
  obtain ⟨more, hmore⟩ := exists_eq_sentence_append heof
  suffices stuck.rest.headD (terminator ts) ∈ sentence ts ++ terminator ts :: more by
    rwa [← hmore] at this
  rw [hts]
  cases stuck.rest with
  | nil => simp
  | cons t rest => simp

/-- A syntax error names the first token that makes the input hopeless: no end of
input stands before it, the tokens before it can be continued to a sentence, and
with it they cannot. -/
theorem error_names_first_hopeless_token {ts : List Token} {e : SyntaxError}
    (h : parse ts = .error e) :
    ∃ i, (closed ts)[i]? = some e.token ∧ (∀ t ∈ (closed ts).take i, t.kind ≠ .eof) ∧
      Viable ((closed ts).take i) ∧ ¬ Viable ((closed ts).take (i + 1)) := by
  obtain ⟨stuck, hstuck, rfl⟩ := parse_eq_error h
  obtain ⟨w, hts, ⟨more, p, hbegins⟩, hopeless⟩ := hopeless_of_program_error hstuck
  obtain ⟨behind, hclosed⟩ := exists_closed_eq ts
  have hproper := proper_sentence ts
  rw [hts] at hclosed hproper
  -- the token stands right behind `w`, be it one of the input or the end of it
  suffices ∃ behind, closed ts = w ++ stuck.rest.headD (terminator ts) :: behind ∧
      ¬ Viable (w ++ [stuck.rest.headD (terminator ts)]) by
    obtain ⟨behind, hclosed, hhopeless⟩ := this
    refine ⟨w.length, ?_, ?_, ?_, ?_⟩
    · simp [hclosed]
    · rw [hclosed, List.take_left]
      exact (proper_append.mp hproper).1
    · rw [hclosed, List.take_left]
      exact viable_of_sentence hbegins
    · rwa [hclosed, List.take_length_add_append]
  cases hrest : stuck.rest with
  | nil =>
      rw [hrest, List.append_nil] at hclosed
      refine ⟨behind, hclosed, fun hviable => ?_⟩
      obtain ⟨p, hp⟩ := sentence_of_viable_eof (terminator_kind ts) hviable
      rw [← List.append_nil w] at hp
      exact hopeless [] p (by rw [hrest]) hp
  | cons t rest =>
      rw [hrest, List.append_assoc] at hclosed
      rw [hrest] at hproper
      refine ⟨_, hclosed, fun hviable => ?_⟩
      have ht : t.kind ≠ .eof := hproper t (by simp)
      obtain ⟨more, p, hp⟩ := sentence_of_viable ht hviable
      exact hopeless (t :: more) p (by rw [hrest]; rfl) hp

/-- The tokens of `x = (y;`, with no end of input. -/
def unclosed : List Token :=
  [⟨.ident, "x", ⟨0, 1, 1⟩⟩, ⟨.assign, "=", ⟨2, 1, 3⟩⟩, ⟨.lparen, "(", ⟨4, 1, 5⟩⟩,
    ⟨.ident, "y", ⟨5, 1, 6⟩⟩, ⟨.semicolon, ";", ⟨6, 1, 7⟩⟩]

/-- The semicolon is to blame; without it, the end of input. -/
theorem unclosed_names_first_hopeless_token :
    parse unclosed = .error ⟨.groupEnd, ⟨.semicolon, ";", ⟨6, 1, 7⟩⟩⟩ ∧
    (∃ i, (closed unclosed)[i]? = some ⟨.semicolon, ";", ⟨6, 1, 7⟩⟩ ∧
      (∀ t ∈ (closed unclosed).take i, t.kind ≠ .eof) ∧
      Viable ((closed unclosed).take i) ∧ ¬ Viable ((closed unclosed).take (i + 1))) ∧
    parse (unclosed.take 4) = .error ⟨.groupEnd, Token.endOfInput⟩ ∧
    ∃ i, (closed (unclosed.take 4))[i]? = some Token.endOfInput ∧
      (∀ t ∈ (closed (unclosed.take 4)).take i, t.kind ≠ .eof) ∧
      Viable ((closed (unclosed.take 4)).take i) ∧
      ¬ Viable ((closed (unclosed.take 4)).take (i + 1)) := by
  have hinside : parse unclosed = .error ⟨.groupEnd, ⟨.semicolon, ";", ⟨6, 1, 7⟩⟩⟩ := by cbv
  have hend : parse (unclosed.take 4) = .error ⟨.groupEnd, Token.endOfInput⟩ := by cbv
  exact ⟨hinside, error_names_first_hopeless_token hinside, hend,
    error_names_first_hopeless_token hend⟩

end ThreeAddress
