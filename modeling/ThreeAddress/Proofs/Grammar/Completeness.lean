import ThreeAddress.Proofs.Grammar.Descent

/-!
# What follows the grammar is read

A phrase of the grammar, with more tokens after it, is read up to the end of
the phrase. One token of lookahead is enough for that: each statement below
says which kinds may come next, and every rule that puts a phrase before others
keeps to it.

An operator chain needs a statement of its own. Its phrases grow at the end,
while its parser goes on from what it has joined so far; so a chain that starts
with a phrase is said to come to the point where that phrase is the left
operand.
-/

namespace ThreeAddress.Parser

open Grammar

/-- The next token, if there is one, has a kind of the given sort. -/
def NextIs (P : Kind → Prop) : List Token → Prop
  | [] => True
  | t :: _ => P t.kind

/-! ## Expressions -/

theorem joined_of_next {tier : Tier} (left : Expr) {rest : List Token}
    (h : NextIs (tier.op? · = none) rest) : (joined tier left rest).bare = .ok (left, rest) := by
  cases rest with
  | nil => exact joined_nil tier left
  | cons t rest =>
      rw [joined_cons]
      have hop : tier.op? t.kind = none := h
      rw [hop]

/-- The phrase is read to its end whatever comes next, as far as the grammar
lets it come next. -/
def PhraseRead : Level → List Token → Expr → Prop
  | .factor, w, x => ∀ rest, ∃ y, y.erase = x ∧ (factor (w ++ rest)).bare = .ok (y, rest)
  | .term, w, x => ∀ rest, ∃ y, y.erase = x ∧
      (chain .product (w ++ rest)).bare = (joined .product y rest).bare
  | .expr, w, x => ∀ rest, NextIs (Tier.product.op? · = none) rest → ∃ y, y.erase = x ∧
      (chain .sum (w ++ rest)).bare = (joined .sum y rest).bare

theorem not_product_of_sumOp {kind : Kind} {op : Op} (h : SumOp kind op) :
    Tier.product.op? kind = none := by
  cases h <;> rfl

theorem phraseRead {level : Level} {w : List Token} {x : Expr} (h : Phrase level w x) :
    PhraseRead level w x := by
  induction h with
  | @ident t hkind =>
      intro rest
      refine ⟨.var t.loc.offset t.text, rfl, ?_⟩
      rw [List.singleton_append, factor_cons, hkind]
  | @number t hkind =>
      intro rest
      refine ⟨.lit t.loc.offset t.text, rfl, ?_⟩
      rw [List.singleton_append, factor_cons, hkind]
  | @group opening closing w x hopen _ hclose ih =>
      intro rest
      have notOp : ∀ tier : Tier, NextIs (tier.op? · = none) (closing :: rest) := by
        intro tier
        show tier.op? closing.kind = none
        rw [hclose]
        cases tier <;> rfl
      -- the parenthesis goes on with neither tier, so the chain inside ends there
      obtain ⟨y, hy, hchain⟩ := ih (closing :: rest) (notOp .product)
      rw [joined_of_next y (notOp .sum)] at hchain
      refine ⟨y, hy, ?_⟩
      rw [List.cons_append, List.append_assoc, List.singleton_append, factor_cons, hopen]
      simp [hchain, expect_of_eq _ hclose]
  | term _ ih =>
      intro rest
      obtain ⟨y, hy, hfactor⟩ := ih rest
      refine ⟨y, hy, ?_⟩
      rw [chain_eq, operand_product, hfactor, ok_bind]
  | @product t op w v x y _ hop _ ihx ihy =>
      intro rest
      obtain ⟨x', hx, hchain⟩ := ihx (t :: (v ++ rest))
      obtain ⟨y', hy, hfactor⟩ := ihy rest
      refine ⟨.bin x'.pos op x' y', by rw [Expr.erase, hx, hy], ?_⟩
      rw [List.append_assoc, List.cons_append, hchain, joined_cons,
        op?_product_eq_some_iff.mpr hop]
      simp [operand_product, hfactor]
  | expr _ ih =>
      intro rest hnext
      obtain ⟨y, hy, hchain⟩ := ih rest
      refine ⟨y, hy, ?_⟩
      rw [chain_eq, operand_sum, hchain, joined_of_next y hnext, ok_bind]
  | @sum t op w v x y _ hop _ ihx ihy =>
      intro rest hnext
      -- a sum sign ends the products on its left, and joins the term on its right
      obtain ⟨x', hx, hchain⟩ := ihx (t :: (v ++ rest)) (not_product_of_sumOp hop)
      obtain ⟨y', hy, hterm⟩ := ihy rest
      rw [joined_of_next y' hnext] at hterm
      refine ⟨.bin x'.pos op x' y', by rw [Expr.erase, hx, hy], ?_⟩
      rw [List.append_assoc, List.cons_append, hchain, joined_cons, op?_sum_eq_some_iff.mpr hop]
      simp [operand_sum, hterm]

/-- An expression ends where neither tier goes on. -/
theorem expression_read {w : List Token} {x : Expr} (h : Phrase .expr w x) (rest : List Token)
    (hnext : NextIs (fun kind => ∀ tier : Tier, tier.op? kind = none) rest) :
    ∃ y, y.erase = x ∧ (expression (w ++ rest)).bare = .ok (y, rest) := by
  have notOp : ∀ tier : Tier, NextIs (tier.op? · = none) rest := by
    intro tier
    cases rest with
    | nil => exact trivial
    | cons t rest => exact hnext tier
  obtain ⟨y, hy, hchain⟩ := phraseRead h rest (notOp .product)
  exact ⟨y, hy, hchain.trans (joined_of_next y (notOp .sum))⟩

theorem not_op_of_relOp {kind : Kind} {op : Op} (h : RelOp kind op) (tier : Tier) :
    tier.op? kind = none := by
  cases h <;> cases tier <;> rfl

theorem condition_read (clause : Clause) {opening closing : Token} {w : List Token} {x : Expr}
    (hopen : opening.kind = .lparen) (h : Relation w x) (hclose : closing.kind = .rparen)
    (rest : List Token) :
    ∃ y, y.erase = x ∧
      (condition clause (opening :: (w ++ closing :: rest))).bare = .ok (y, rest) := by
  obtain @⟨t, op, w, v, x, y, hx, hop, hy⟩ := h
  have hnext : NextIs (fun kind => ∀ tier : Tier, tier.op? kind = none) (closing :: rest) := by
    intro tier
    rw [hclose]
    cases tier <;> rfl
  obtain ⟨x', rfl, hleft⟩ :=
    expression_read hx (t :: (v ++ closing :: rest)) (not_op_of_relOp hop)
  obtain ⟨y', rfl, hright⟩ := expression_read hy (closing :: rest) hnext
  refine ⟨.bin x'.pos op x' y', rfl, ?_⟩
  rw [condition_eq, expect_of_eq _ hopen, ok_bind, relation_eq, List.append_assoc,
    List.cons_append, hleft, ok_bind]
  simp [comparison?_eq_some_iff.mpr hop, hright, expect_of_eq _ hclose]

/-! ## Statements -/

theorem stmt_starts {w : List Token} {s : Stmt} (h : Derives .stmt w s) :
    ∃ t w', w = t :: w' ∧ (t.kind = .ident ∨ t.kind = .keyWhile ∨ t.kind = .keyIf) := by
  cases h with
  | assign hname => exact ⟨_, _, rfl, .inl hname⟩
  | loop hkey => exact ⟨_, _, rfl, .inr (.inl hkey)⟩
  | branch hkey => exact ⟨_, _, rfl, .inr (.inr hkey)⟩
  | branchElse hkey => exact ⟨_, _, rfl, .inr (.inr hkey)⟩

/-- Statements start as a statement does, or are empty and what comes after
them comes next. -/
theorem nextIs_of_stmts {P : Kind → Prop} {w rest : List Token} {ss : List Stmt}
    (h : Derives .stmts w ss) (hident : P .ident) (hwhile : P .keyWhile) (hif : P .keyIf)
    (hrest : NextIs P rest) : NextIs P (w ++ rest) := by
  cases h with
  | nil => exact hrest
  | cons hs _ =>
      obtain ⟨t, w', rfl, hkind⟩ := stmt_starts hs
      show P t.kind
      rcases hkind with hkind | hkind | hkind <;> rw [hkind] <;> assumption

/-- The phrase is read to its end. A statement must not be followed by an else
part that it would take for its own, and statements end at a brace or with the
text. -/
def DerivationRead : (symbol : Symbol) → List Token → symbol.Tree → Prop
  | .stmt, w, s => ∀ rest, NextIs (· ≠ .keyElse) rest →
      ∃ s', s'.erase = s ∧ (statement (w ++ rest)).bare = .ok (s', rest)
  | .stmts, w, ss => ∀ rest, NextIs (· = .rbrace) rest →
      ∃ ss', Stmt.eraseAll ss' = ss ∧ (statements (w ++ rest)).bare = .ok (ss', rest)
  | .block, w, ss => ∀ clause rest,
      ∃ ss', Stmt.eraseAll ss' = ss ∧ (block clause (w ++ rest)).bare = .ok (ss', rest)

theorem statements_of_next {rest : List Token} (h : NextIs (· = .rbrace) rest) :
    (statements rest).bare = .ok ([], rest) := by
  cases rest with
  | nil => exact statements_nil
  | cons t rest =>
      rw [statements_cons]
      exact if_pos h

theorem NextIs.imp {P Q : Kind → Prop} (h : ∀ kind, P kind → Q kind) {ts : List Token}
    (hts : NextIs P ts) : NextIs Q ts := by
  cases ts with
  | nil => exact trivial
  | cons t ts => exact h _ hts

theorem derivationRead {symbol : Symbol} {w : List Token} {tree : symbol.Tree}
    (h : Derives symbol w tree) : DerivationRead symbol w tree := by
  induction h with
  | @assign name sign semicolon w x hname hsign hx hsemi =>
      intro rest _
      have hnext :
          NextIs (fun kind => ∀ tier : Tier, tier.op? kind = none) (semicolon :: rest) := by
        intro tier
        rw [hsemi]
        cases tier <;> rfl
      obtain ⟨x', rfl, hread⟩ := expression_read hx (semicolon :: rest) hnext
      refine ⟨.assign name.loc.offset name.text x', rfl, ?_⟩
      simp [statement_cons, hname, assignment_eq, expect_of_eq _ hsign, hread,
        expect_of_eq _ hsemi]
  | @loop key opening closing w v x body hkey hopen hx hclose _ ih =>
      intro rest _
      obtain ⟨x', rfl, hcond⟩ := condition_read .loop hopen hx hclose (v ++ rest)
      obtain ⟨body', rfl, hbody⟩ := ih .loop rest
      refine ⟨.loop key.loc.offset x' body', rfl, ?_⟩
      rw [List.cons_append, List.cons_append, List.append_assoc, List.cons_append,
        statement_cons, hkey]
      simp [hcond, hbody]
  | @branch key opening closing w v x onTrue hkey hopen hx hclose _ ih =>
      intro rest hnext
      obtain ⟨x', rfl, hcond⟩ := condition_read .branch hopen hx hclose (v ++ rest)
      obtain ⟨yes, rfl, htrue⟩ := ih .branch rest
      refine ⟨.branch key.loc.offset x' yes [], rfl, ?_⟩
      rw [List.cons_append, List.cons_append, List.append_assoc, List.cons_append,
        statement_cons, hkey]
      simp only [hcond, htrue, ok_bind]
      -- without an else part the branch must see that none follows
      cases rest with
      | nil => rfl
      | cons t rest => exact if_neg hnext
  | @branchElse key opening closing otherwise w v u x onTrue onFalse hkey hopen hx hclose _ helse
      _ ihTrue ihFalse =>
      intro rest _
      obtain ⟨x', rfl, hcond⟩ :=
        condition_read .branch hopen hx hclose (v ++ otherwise :: (u ++ rest))
      obtain ⟨yes, rfl, htrue⟩ := ihTrue .branch (otherwise :: (u ++ rest))
      obtain ⟨no, rfl, hfalse⟩ := ihFalse .otherwise rest
      refine ⟨.branch key.loc.offset x' yes no, rfl, ?_⟩
      rw [List.cons_append, List.cons_append, List.append_assoc, List.cons_append,
        List.append_assoc, List.cons_append, statement_cons, hkey]
      simp [hcond, htrue, helse, hfalse]
  | nil =>
      intro rest hnext
      exact ⟨[], rfl, statements_of_next hnext⟩
  | @cons w v s ss hs hss ihs ihss =>
      intro rest hnext
      -- no statement starts with the word that would carry on the one before
      have hmore : NextIs (· ≠ .keyElse) (v ++ rest) :=
        nextIs_of_stmts hss (by decide) (by decide) (by decide)
          (hnext.imp fun kind h => by rw [h]; decide)
      obtain ⟨s', rfl, hfirst⟩ := ihs (v ++ rest) hmore
      obtain ⟨ss', rfl, hrest⟩ := ihss rest hnext
      obtain ⟨t, w', rfl, hkind⟩ := stmt_starts hs
      have hbrace : t.kind ≠ .rbrace := by
        rcases hkind with hkind | hkind | hkind <;> rw [hkind] <;> decide
      refine ⟨s' :: ss', rfl, ?_⟩
      rw [List.append_assoc, List.cons_append, statements_cons, if_neg hbrace, ← List.cons_append,
        hfirst, ok_bind, hrest, ok_bind]
  | @block opening closing w ss hopen _ hclose ih =>
      intro clause rest
      obtain ⟨ss', rfl, hbody⟩ := ih (closing :: rest) hclose
      refine ⟨ss', rfl, ?_⟩
      simp [block_eq, expect_of_eq _ hopen, hbody, expect_of_eq _ hclose]

/-! ## Programs -/

theorem names_read (ty : Ty) {w : List Token} {ns : List String} (h : Names w ns)
    (rest : List Token) (hnext : NextIs (· ≠ .comma) rest) :
    (names ty (w ++ rest)).bare = .ok (ns, rest) := by
  induction h with
  | @one t hident =>
      rw [List.singleton_append, names_eq, expect_of_eq _ hident, ok_bind]
      cases rest with
      | nil => rfl
      | cons t' rest => exact if_neg hnext
  | @more t comma w ns hident hcomma _ ih =>
      rw [List.cons_append, List.cons_append, names_eq, expect_of_eq _ hident, ok_bind]
      simp [hcomma, ih]

theorem declarations_read {w : List Token} {ds : List Decl} (h : Declarations w ds)
    (rest : List Token) (hnext : NextIs (tyOf? · = none) rest) :
    ∃ ds', ds'.map Decl.erase = ds ∧ (declarations (w ++ rest)).bare = .ok (ds', rest) := by
  induction h with
  | nil =>
      refine ⟨[], rfl, ?_⟩
      cases rest with
      | nil => exact declarations_nil
      | cons t rest =>
          have hty : tyOf? t.kind = none := hnext
          rw [List.nil_append, declarations_cons, hty]
  | @cons t semicolon ty w v names ds hty hnames hsemi _ ih =>
      obtain ⟨ds', rfl, hmore⟩ := ih
      refine ⟨⟨t.loc.offset, ty, names⟩ :: ds', rfl, ?_⟩
      have hcomma : NextIs (· ≠ .comma) (semicolon :: (v ++ rest)) := by
        show semicolon.kind ≠ .comma
        rw [hsemi]
        decide
      rw [List.cons_append, List.append_assoc, List.cons_append, declarations_cons,
        tyOf?_eq_some_iff.mpr hty]
      simp [names_read ty hnames _ hcomma, expect_of_eq _ hsemi, hmore]

theorem program_of_statements {ts us : List Token} {ds : List Decl} {ss : List Stmt}
    (hhead : preamble ts = .ok (ds, us)) (hbody : (statements us).bare = .ok (ss, [])) :
    program ts = .ok (ds, ss) := by
  rw [program_eq, hhead, ok_bind, hbody, ok_bind]

/-- Every sentence of the grammar is read, to its own tree. -/
theorem program_read {w : List Token} {p : Program} (h : Sentence w p) :
    ∃ ds ss, program w = .ok (ds, ss) ∧ p = ⟨0, ds.map Decl.erase, Stmt.eraseAll ss⟩ := by
  cases h with
  | @plain w ss hss =>
      obtain ⟨ss', rfl, hbody⟩ := derivationRead hss [] trivial
      rw [List.append_nil] at hbody
      refine ⟨[], ss', program_of_statements ?_ hbody, rfl⟩
      -- statements do not start with the word that opens the declarations
      have hvar : NextIs (· ≠ .keyVar) (w ++ []) :=
        nextIs_of_stmts hss (by decide) (by decide) (by decide) trivial
      rw [List.append_nil] at hvar
      cases w with
      | nil => exact preamble_nil
      | cons t w =>
          rw [preamble_cons]
          exact if_neg hvar
  | @declared key w v ds ss hkey hds hss =>
      obtain ⟨ss', rfl, hbody⟩ := derivationRead hss [] trivial
      rw [List.append_nil] at hbody
      -- nor with a type, which would start another declaration
      have hty : NextIs (tyOf? · = none) (v ++ []) :=
        nextIs_of_stmts hss rfl rfl rfl trivial
      rw [List.append_nil] at hty
      obtain ⟨ds', rfl, hdecls⟩ := declarations_read hds v hty
      refine ⟨ds', ss', program_of_statements ?_ hbody, rfl⟩
      rw [preamble_cons, if_pos hkey, hdecls]

end ThreeAddress.Parser

namespace ThreeAddress

theorem sentence_of_parse {ts : List Token} {p : Program} (h : parse ts = .ok p) :
    Grammar.Sentence (sentence ts) p.erase := by
  unfold parse at h
  split at h
  · cases h
  · rename_i ds ss hread
    cases h
    exact Parser.program_sentence hread

theorem parse_of_sentence {ts : List Token} {t : Program}
    (h : Grammar.Sentence (sentence ts) t) : ∃ p, parse ts = .ok p ∧ p.erase = t := by
  obtain ⟨ds, ss, hread, rfl⟩ := Parser.program_read h
  refine ⟨⟨((sentence ts).headD (terminator ts)).loc.offset, ds, ss⟩, ?_, rfl⟩
  rw [parse, hread]

/-- The parser accepts exactly its grammar: tokens are accepted with some tree
iff those up to the first end of input derive that tree, places aside. Tokens
derive one tree at most. -/
theorem parse_eq_ok_iff_sentence :
    (∀ (ts : List Token) (t : Program),
      (∃ p, parse ts = .ok p ∧ p.erase = t) ↔ Grammar.Sentence (sentence ts) t) ∧
    ∀ (w : List Token) (t t' : Program),
      Grammar.Sentence w t → Grammar.Sentence w t' → t = t' := by
  refine ⟨fun ts t => ⟨?_, parse_of_sentence⟩, fun w t t' h h' => ?_⟩
  · rintro ⟨p, hp, rfl⟩
    exact sentence_of_parse hp
  · -- both trees are what one and the same run returns
    obtain ⟨ds, ss, hread, rfl⟩ := Parser.program_read h
    obtain ⟨ds', ss', hread', rfl⟩ := Parser.program_read h'
    rw [hread] at hread'
    cases hread'
    rfl

/-- The tokens of `d = a - b - c;`, and more after the end of input. -/
def subtraction : List Token :=
  [⟨.ident, "d", .start⟩, ⟨.assign, "=", .start⟩, ⟨.ident, "a", .start⟩, ⟨.minus, "-", .start⟩,
    ⟨.ident, "b", .start⟩, ⟨.minus, "-", .start⟩, ⟨.ident, "c", .start⟩, ⟨.semicolon, ";", .start⟩,
    ⟨.eof, "", .start⟩, ⟨.minus, "-", .start⟩, ⟨.eof, "", .start⟩]

/-- Subtractions lean to the left, and to no other side. -/
theorem subtraction_derives_left :
    Grammar.Sentence (sentence subtraction)
      ⟨0, [], [.assign 0 "d" (.bin 0 .sub (.bin 0 .sub (.var 0 "a") (.var 0 "b")) (.var 0 "c"))]⟩ ∧
    ¬ Grammar.Sentence (sentence subtraction)
      ⟨0, [], [.assign 0 "d"
        (.bin 0 .sub (.var 0 "a") (.bin 0 .sub (.var 0 "b") (.var 0 "c")))]⟩ := by
  have hleft : Grammar.Sentence (sentence subtraction)
      ⟨0, [], [.assign 0 "d"
        (.bin 0 .sub (.bin 0 .sub (.var 0 "a") (.var 0 "b")) (.var 0 "c"))]⟩ :=
    (parse_eq_ok_iff_sentence.1 subtraction _).mp ⟨_, by cbv, rfl⟩
  refine ⟨hleft, fun hright => ?_⟩
  have := parse_eq_ok_iff_sentence.2 _ _ _ hleft hright
  simp at this

end ThreeAddress
