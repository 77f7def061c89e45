import ThreeAddress.Proofs.Grammar.Descent

/-!
# Where trees stand

The grammar once more, this time with the offsets of the nodes. A name, a number,
a declaration and a statement stand at the token they begin with, and a program at
its first token. For operators the offset is left open: `start` gives it for the
tokens of the phrase, which are those of both operands, parentheses included, and
the operator between them.

A parser hands the offset of the left operand on to the operator. Parentheses are
no nodes and have no offsets, so an operand in parentheses stands inside them, and
so does the operator behind it. Operators therefore stand at the first token of
their phrase that is not an opening parenthesis (`wordOffset`), and not always at
the first token (`firstOffset`).
-/

namespace ThreeAddress.Grammar

/-! ## Offsets of phrases -/

/-- The offset of the first token. -/
def firstOffset (w : List Token) : Option Int := w.head?.map (·.loc.offset)

/-- The offset of the first token behind all parentheses that open in front. -/
def wordOffset (w : List Token) : Option Int :=
  (w.find? (·.kind ≠ .lparen)).map (·.loc.offset)

theorem wordOffset_cons {t : Token} (h : t.kind ≠ .lparen) (w : List Token) :
    wordOffset (t :: w) = some t.loc.offset := by
  simp [wordOffset, h]

theorem wordOffset_opening {t : Token} (h : t.kind = .lparen) (w : List Token) :
    wordOffset (t :: w) = wordOffset w := by
  simp [wordOffset, h]

theorem wordOffset_append {w : List Token} {n : Int} (h : wordOffset w = some n)
    (v : List Token) : wordOffset (w ++ v) = some n := by
  obtain ⟨t, ht, rfl⟩ := Option.map_eq_some_iff.mp h
  rw [wordOffset, List.find?_append, ht]
  rfl

/-- Where tokens stand one behind the other, the two offsets differ just for those
that begin with a parenthesis. -/
theorem wordOffset_eq_firstOffset_iff {w : List Token}
    (hw : w.Pairwise fun t t' => t.loc.offset < t'.loc.offset) :
    wordOffset w = firstOffset w ↔ ∀ t ∈ w.head?, t.kind ≠ .lparen := by
  cases w with
  | nil => exact iff_of_true rfl (by simp)
  | cons t w =>
      by_cases hopen : t.kind = .lparen
      · refine iff_of_false (fun heq => ?_) fun h => h t rfl hopen
        rw [wordOffset_opening hopen] at heq
        obtain ⟨t', ht', hoffset⟩ := Option.map_eq_some_iff.mp heq
        have hlt := (List.pairwise_cons.mp hw).1 t' (List.mem_of_find?_eq_some ht')
        exact Int.ne_of_gt hlt hoffset
      · refine iff_of_true (wordOffset_cons hopen w) ?_
        rintro _ ⟨⟩
        exact hopen

/-! ## Expressions -/

variable {start : List Token → Option Int}

/-- The tokens are an expression, a term or a factor, and the tree stands where
they do. -/
inductive PhraseAt (start : List Token → Option Int) : Level → List Token → Expr → Prop
  | ident {t : Token} : t.kind = .ident →
      PhraseAt start .factor [t] (.var t.loc.offset t.text)
  | number {t : Token} : t.kind = .number →
      PhraseAt start .factor [t] (.lit t.loc.offset t.text)
  | group {opening closing : Token} {w : List Token} {x : Expr} : opening.kind = .lparen →
      PhraseAt start .expr w x → closing.kind = .rparen →
      PhraseAt start .factor (opening :: (w ++ [closing])) x
  | term {w : List Token} {x : Expr} : PhraseAt start .factor w x → PhraseAt start .term w x
  | product {t : Token} {op : Op} {w v : List Token} {x y : Expr} {pos : Int} :
      PhraseAt start .term w x → ProductOp t.kind op → PhraseAt start .factor v y →
      start (w ++ t :: v) = some pos → PhraseAt start .term (w ++ t :: v) (.bin pos op x y)
  | expr {w : List Token} {x : Expr} : PhraseAt start .term w x → PhraseAt start .expr w x
  | sum {t : Token} {op : Op} {w v : List Token} {x y : Expr} {pos : Int} :
      PhraseAt start .expr w x → SumOp t.kind op → PhraseAt start .term v y →
      start (w ++ t :: v) = some pos → PhraseAt start .expr (w ++ t :: v) (.bin pos op x y)

/-- The tokens are a comparison in parentheses. The parentheses belong to the
statement around it and not to the phrase of the comparison. -/
inductive ConditionAt (start : List Token → Option Int) : List Token → Expr → Prop
  | compare {opening t closing : Token} {op : Op} {w v : List Token} {x y : Expr} {pos : Int} :
      opening.kind = .lparen → PhraseAt start .expr w x → RelOp t.kind op →
      PhraseAt start .expr v y → closing.kind = .rparen → start (w ++ t :: v) = some pos →
      ConditionAt start (opening :: (w ++ t :: v ++ [closing])) (.bin pos op x y)

/-! ## Statements -/

/-- The tokens are a statement, statements one after the other, or a block, and the
tree stands where they do. -/
inductive DerivesAt (start : List Token → Option Int) :
    (symbol : Symbol) → List Token → symbol.Tree → Prop
  | assign {name sign semicolon : Token} {w : List Token} {x : Expr} : name.kind = .ident →
      sign.kind = .assign → PhraseAt start .expr w x → semicolon.kind = .semicolon →
      DerivesAt start .stmt (name :: sign :: (w ++ [semicolon]))
        (.assign name.loc.offset name.text x)
  | loop {key : Token} {w v : List Token} {x : Expr} {body : List Stmt} :
      key.kind = .keyWhile → ConditionAt start w x → DerivesAt start .block v body →
      DerivesAt start .stmt (key :: (w ++ v)) (.loop key.loc.offset x body)
  | branch {key : Token} {w v : List Token} {x : Expr} {onTrue : List Stmt} :
      key.kind = .keyIf → ConditionAt start w x → DerivesAt start .block v onTrue →
      DerivesAt start .stmt (key :: (w ++ v)) (.branch key.loc.offset x onTrue [])
  | branchElse {key otherwise : Token} {w v u : List Token} {x : Expr}
      {onTrue onFalse : List Stmt} : key.kind = .keyIf → ConditionAt start w x →
      DerivesAt start .block v onTrue → otherwise.kind = .keyElse →
      DerivesAt start .block u onFalse →
      DerivesAt start .stmt (key :: (w ++ (v ++ otherwise :: u)))
        (.branch key.loc.offset x onTrue onFalse)
  | nil : DerivesAt start .stmts [] []
  | cons {w v : List Token} {s : Stmt} {ss : List Stmt} : DerivesAt start .stmt w s →
      DerivesAt start .stmts v ss → DerivesAt start .stmts (w ++ v) (s :: ss)
  | block {opening closing : Token} {w : List Token} {ss : List Stmt} :
      opening.kind = .lbrace → DerivesAt start .stmts w ss → closing.kind = .rbrace →
      DerivesAt start .block (opening :: (w ++ [closing])) ss

/-! ## Programs -/

/-- The tokens are declarations one after the other, which stand where they do. -/
inductive DeclarationsAt : List Token → List Decl → Prop
  | nil : DeclarationsAt [] []
  | cons {t semicolon : Token} {ty : Ty} {w v : List Token} {names : List String}
      {ds : List Decl} : TypeWord t.kind ty → Names w names → semicolon.kind = .semicolon →
      DeclarationsAt v ds →
      DeclarationsAt (t :: (w ++ semicolon :: v)) (⟨t.loc.offset, ty, names⟩ :: ds)

/-- The tokens are a program, and the tree stands where they do. -/
inductive SentenceAt (start : List Token → Option Int) : List Token → Program → Prop
  | plain {w : List Token} {ss : List Stmt} {pos : Int} : DerivesAt start .stmts w ss →
      (∀ t ∈ w.head?, pos = t.loc.offset) → SentenceAt start w ⟨pos, [], ss⟩
  | declared {key : Token} {w v : List Token} {ds : List Decl} {ss : List Stmt} :
      key.kind = .keyVar → DeclarationsAt w ds → DerivesAt start .stmts v ss →
      SentenceAt start (key :: (w ++ v)) ⟨key.loc.offset, ds, ss⟩

/-! ## Operators stand behind parentheses -/

/-- Every expression stands at its first name or number. -/
theorem PhraseAt.wordOffset_eq {level : Level} {w : List Token} {x : Expr}
    (h : PhraseAt wordOffset level w x) : wordOffset w = some x.pos := by
  induction h with
  | ident hkind => exact wordOffset_cons (by rw [hkind]; decide) []
  | number hkind => exact wordOffset_cons (by rw [hkind]; decide) []
  | group hopen _ _ ih =>
      rw [wordOffset_opening hopen]
      exact wordOffset_append ih _
  | term _ ih | expr _ ih => exact ih
  | product _ _ _ hpos | sum _ _ _ hpos => exact hpos

/-- An operator stands where its tokens say, unless they are in parentheses. -/
theorem PhraseAt.start_eq_or_group {level : Level} {w : List Token} {pos : Int} {op : Op}
    {x y : Expr} (h : PhraseAt start level w (.bin pos op x y)) :
    start w = some pos ∨
      ∃ opening v closing, w = opening :: (v ++ [closing]) ∧ closing.kind = .rparen := by
  generalize htree : Expr.bin pos op x y = tree at h
  induction h with
  | ident | number => cases htree
  | group _ _ hclose => exact .inr ⟨_, _, _, rfl, hclose⟩
  | term _ ih | expr _ ih => exact ih htree
  | product _ _ _ hpos | sum _ _ _ hpos =>
      cases htree
      exact .inl hpos

theorem DerivesAt.phrase_of_assign {w : List Token} {pos : Int} {name : String} {x : Expr}
    (h : DerivesAt start .stmts w [.assign pos name x]) :
    ∃ n sign v semicolon, w = n :: sign :: (v ++ [semicolon]) ∧ PhraseAt start .expr v x := by
  generalize hss : [Stmt.assign pos name x] = ss at h
  cases h with
  | nil => cases hss
  | cons hs hnil =>
      cases hss
      cases hnil
      generalize hassign : Stmt.assign pos name x = s at hs
      cases hs with
      | assign _ _ hx _ =>
          cases hassign
          exact ⟨_, _, _, _, List.append_nil _, hx⟩
      | loop | branch | branchElse => cases hassign

theorem SentenceAt.derives_or_declared {w : List Token} {p : Program}
    (h : SentenceAt start w p) :
    DerivesAt start .stmts w p.stmts ∨ ∃ key rest, w = key :: rest ∧ key.kind = .keyVar := by
  cases h with
  | plain hbody => exact .inl hbody
  | declared hkey => exact .inr ⟨_, _, rfl, hkey⟩

end ThreeAddress.Grammar

namespace ThreeAddress.Parser

open Grammar

variable {α : Type}

/-- Whatever was read, a phrase was taken for it off the front of `ts`. -/
def Takes (R : List Token → α → Prop) (ts : List Token)
    (outcome : Except Stuck (α × List Token)) : Prop :=
  ∀ {x rest}, outcome = .ok (x, rest) → ∃ w, ts = w ++ rest ∧ R w x

theorem eq_cons_of_expect {kind : Kind} {reason : Reason} {t : Token} {ts rest : List Token}
    (h : (expect kind reason ts).bare = .ok (t, rest)) : ts = t :: rest ∧ t.kind = kind := by
  cases ts with
  | nil => cases h
  | cons t' ts =>
      rw [expect_cons] at h
      split at h
      · cases h
        exact ⟨rfl, ‹_›⟩
      · cases h

/-! ## Expressions -/

theorem phraseAt_of_below {tier : Tier} {w : List Token} {x : Expr}
    (h : PhraseAt wordOffset tier.below w x) : PhraseAt wordOffset tier.level w x := by
  cases tier with
  | sum => exact .expr h
  | product => exact .term h

theorem phraseAt_of_op {tier : Tier} {t : Token} {op : Op} {w v : List Token} {x y : Expr}
    (hop : tier.op? t.kind = some op) (hx : PhraseAt wordOffset tier.level w x)
    (hy : PhraseAt wordOffset tier.below v y) :
    PhraseAt wordOffset tier.level (w ++ t :: v) (.bin x.pos op x y) := by
  have hpos : wordOffset (w ++ t :: v) = some x.pos := wordOffset_append hx.wordOffset_eq _
  cases tier with
  | sum => exact .sum hx (op?_sum_eq_some_iff.mp hop) hy hpos
  | product => exact .product hx (op?_product_eq_some_iff.mp hop) hy hpos

/-- The parsers of expressions take phrases off `ts`. Further operands are joined to
a phrase `v` that was taken before. -/
structure TakesPhrases (ts : List Token) : Prop where
  factor : Takes (PhraseAt wordOffset .factor) ts (factor ts).bare
  chain : ∀ tier : Tier, Takes (PhraseAt wordOffset tier.level) ts (chain tier ts).bare
  joined : ∀ {tier : Tier} {left v}, PhraseAt wordOffset tier.level v left →
    Takes (fun w => PhraseAt wordOffset tier.level (v ++ w)) ts (joined tier left ts).bare

theorem TakesPhrases.operand {ts : List Token} (h : TakesPhrases ts) (tier : Tier) :
    Takes (PhraseAt wordOffset tier.below) ts (operand tier ts).bare := by
  cases tier with
  | sum =>
      rw [operand_sum]
      exact h.chain .product
  | product =>
      rw [operand_product]
      exact h.factor

section Step

-- One round of the induction: all shorter lists of tokens are settled.
variable {ts : List Token} (shorter : ∀ us, us.length < ts.length → TakesPhrases us)
include shorter

theorem factor_takes : Takes (PhraseAt wordOffset .factor) ts (factor ts).bare := by
  intro x rest h
  cases ts with
  | nil =>
      rw [factor_nil] at h
      cases h
  | cons t ts =>
      rw [factor_cons] at h
      cases hkind : t.kind <;> rw [hkind] at h
      case ident =>
        cases h
        exact ⟨[t], rfl, .ident hkind⟩
      case number =>
        cases h
        exact ⟨[t], rfl, .number hkind⟩
      case lparen =>
        obtain ⟨⟨x, ts₁⟩, hinner, h⟩ := bind_eq_ok_iff.mp h
        obtain ⟨⟨closing, ts₂⟩, hclose, h⟩ := bind_eq_ok_iff.mp h
        cases h
        obtain ⟨w, rfl, hw⟩ := (shorter ts (Nat.lt_succ_self _)).chain .sum hinner
        obtain ⟨rfl, hclosing⟩ := eq_cons_of_expect hclose
        exact ⟨t :: (w ++ [closing]), by simp, .group hkind hw hclosing⟩
      all_goals cases h

theorem joined_takes {tier : Tier} {left : Expr} {v : List Token}
    (hleft : PhraseAt wordOffset tier.level v left) :
    Takes (fun w => PhraseAt wordOffset tier.level (v ++ w)) ts (joined tier left ts).bare := by
  intro x rest h
  have hstop : PhraseAt wordOffset tier.level (v ++ []) left := by rwa [List.append_nil]
  cases ts with
  | nil =>
      rw [joined_nil] at h
      cases h
      exact ⟨[], rfl, hstop⟩
  | cons t ts =>
      rw [joined_cons] at h
      cases hop : tier.op? t.kind <;> rw [hop] at h
      case none =>
        cases h
        exact ⟨[], rfl, hstop⟩
      case some op =>
        obtain ⟨⟨right, ts₁⟩, hright, hmore⟩ := bind_eq_ok_iff.mp h
        have hlen := Nat.lt_succ_of_lt (Outcome.length_le hright)
        obtain ⟨w, rfl, hw⟩ := (shorter ts (Nat.lt_succ_self _)).operand tier hright
        -- the operand is joined to what was taken before, and the chain goes on behind it
        have hwhole := phraseAt_of_op hop hleft hw
        obtain ⟨u, rfl, hu⟩ := (shorter ts₁ hlen).joined hwhole hmore
        exact ⟨t :: (w ++ u), by simp, by simpa using hu⟩

/-- The first operand of a chain stands before the same tokens as the chain, so it is
not settled by being shorter. -/
theorem chain_takes {tier : Tier}
    (first : Takes (PhraseAt wordOffset tier.below) ts (operand tier ts).bare) :
    Takes (PhraseAt wordOffset tier.level) ts (chain tier ts).bare := by
  intro x rest h
  rw [chain_eq] at h
  obtain ⟨⟨left, ts₁⟩, hfirst, hmore⟩ := bind_eq_ok_iff.mp h
  have hlen := Outcome.length_le hfirst
  obtain ⟨v, rfl, hv⟩ := first hfirst
  obtain ⟨w, rfl, hw⟩ := (shorter ts₁ (by omega)).joined (phraseAt_of_below hv) hmore
  exact ⟨v ++ w, by simp, hw⟩

theorem product_takes : Takes (PhraseAt wordOffset .term) ts (chain .product ts).bare := by
  refine @chain_takes ts shorter .product ?_
  rw [operand_product]
  exact factor_takes shorter

theorem sum_takes : Takes (PhraseAt wordOffset .expr) ts (chain .sum ts).bare := by
  refine @chain_takes ts shorter .sum ?_
  rw [operand_sum]
  exact product_takes shorter

end Step

theorem takesPhrases (ts : List Token) : TakesPhrases ts := by
  induction hn : ts.length using Nat.strongRecOn generalizing ts with
  | ind n ih =>
      subst hn
      have shorter : ∀ us, us.length < ts.length → TakesPhrases us := fun us h => ih _ h us rfl
      refine ⟨factor_takes shorter, fun tier => ?_, joined_takes shorter⟩
      cases tier with
      | sum => exact sum_takes shorter
      | product => exact product_takes shorter

theorem expression_takes (ts : List Token) :
    Takes (PhraseAt wordOffset .expr) ts (expression ts).bare :=
  (takesPhrases ts).chain .sum

theorem condition_takes (clause : Clause) (ts : List Token) :
    Takes (ConditionAt wordOffset) ts (condition clause ts).bare := by
  intro x rest h
  rw [condition_eq] at h
  obtain ⟨⟨opening, ts₁⟩, hopen, h⟩ := bind_eq_ok_iff.mp h
  obtain ⟨⟨cond, ts₂⟩, hcond, h⟩ := bind_eq_ok_iff.mp h
  obtain ⟨⟨closing, ts₃⟩, hclose, h⟩ := bind_eq_ok_iff.mp h
  cases h
  obtain ⟨rfl, hopening⟩ := eq_cons_of_expect hopen
  obtain ⟨rfl, hclosing⟩ := eq_cons_of_expect hclose
  rw [relation_eq] at hcond
  obtain ⟨⟨left, ts₄⟩, hleft, hmore⟩ := bind_eq_ok_iff.mp hcond
  obtain ⟨w, rfl, hw⟩ := expression_takes _ hleft
  cases ts₄ with
  | nil => cases hmore
  | cons t ts₄ =>
      dsimp only at hmore
      cases hop : comparison? t.kind <;> rw [hop] at hmore
      case none => cases hmore
      case some op =>
        obtain ⟨⟨right, ts₅⟩, hright, hdone⟩ := bind_eq_ok_iff.mp hmore
        cases hdone
        obtain ⟨v, rfl, hv⟩ := expression_takes _ hright
        refine ⟨opening :: (w ++ t :: v ++ [closing]), by simp, ?_⟩
        exact .compare hopening hw (comparison?_eq_some_iff.mp hop) hv hclosing
          (wordOffset_append hw.wordOffset_eq _)

/-! ## Statements -/

theorem assignment_takes {name : Token} (hname : name.kind = .ident) (ts : List Token) :
    Takes (fun w => DerivesAt wordOffset .stmt (name :: w)) ts (assignment name ts).bare := by
  intro s rest h
  rw [assignment_eq] at h
  obtain ⟨⟨sign, ts₁⟩, hsign, h⟩ := bind_eq_ok_iff.mp h
  obtain ⟨⟨value, ts₂⟩, hvalue, h⟩ := bind_eq_ok_iff.mp h
  obtain ⟨⟨semicolon, ts₃⟩, hsemi, h⟩ := bind_eq_ok_iff.mp h
  cases h
  obtain ⟨rfl, hassign⟩ := eq_cons_of_expect hsign
  obtain ⟨w, rfl, hw⟩ := expression_takes _ hvalue
  obtain ⟨rfl, hsemicolon⟩ := eq_cons_of_expect hsemi
  exact ⟨sign :: (w ++ [semicolon]), by simp, .assign hname hassign hw hsemicolon⟩

/-- The parsers of statements take phrases off `ts`. -/
structure TakesStatements (ts : List Token) : Prop where
  statements : Takes (DerivesAt wordOffset .stmts) ts (statements ts).bare
  block : ∀ clause, Takes (DerivesAt wordOffset .block) ts (block clause ts).bare

section Step

variable {ts : List Token} (shorter : ∀ us, us.length < ts.length → TakesStatements us)
include shorter

theorem statement_takes : Takes (DerivesAt wordOffset .stmt) ts (statement ts).bare := by
  intro s rest h
  cases ts with
  | nil =>
      rw [statement_nil] at h
      cases h
  | cons t ts =>
      rw [statement_cons] at h
      cases hkind : t.kind <;> rw [hkind] at h
      case ident =>
        obtain ⟨w, rfl, hw⟩ := assignment_takes hkind ts h
        exact ⟨t :: w, rfl, hw⟩
      case keyWhile =>
        obtain ⟨⟨cond, ts₁⟩, hcond, h⟩ := bind_eq_ok_iff.mp h
        obtain ⟨⟨body, ts₂⟩, hbody, h⟩ := bind_eq_ok_iff.mp h
        cases h
        have hlen := Nat.lt_succ_of_lt (Outcome.length_le hcond)
        obtain ⟨w, rfl, hw⟩ := condition_takes .loop _ hcond
        obtain ⟨v, rfl, hv⟩ := (shorter ts₁ hlen).block .loop hbody
        exact ⟨t :: (w ++ v), by simp, .loop hkind hw hv⟩
      case keyIf =>
        obtain ⟨⟨cond, ts₁⟩, hcond, h⟩ := bind_eq_ok_iff.mp h
        obtain ⟨⟨onTrue, ts₂⟩, htrue, hmore⟩ := bind_eq_ok_iff.mp h
        have hlen := Nat.lt_succ_of_lt (Outcome.length_le hcond)
        obtain ⟨w, rfl, hw⟩ := condition_takes .branch _ hcond
        obtain ⟨v, rfl, hv⟩ := (shorter ts₁ hlen).block .branch htrue
        have hshort : DerivesAt wordOffset .stmt (t :: (w ++ v))
            (.branch t.loc.offset cond onTrue []) := .branch hkind hw hv
        -- the two ways to have no else part: the tokens are used up, or another one follows
        cases ts₂ with
        | nil =>
            cases hmore
            exact ⟨t :: (w ++ v), by simp, hshort⟩
        | cons otherwise more =>
            dsimp only at hmore
            split at hmore
            · rename_i helse
              obtain ⟨⟨onFalse, ts₃⟩, hfalse, hdone⟩ := bind_eq_ok_iff.mp hmore
              cases hdone
              have hlast : more.length < (t :: (w ++ (v ++ otherwise :: more))).length := by
                simp only [List.length_cons, List.length_append]
                omega
              obtain ⟨u, rfl, hu⟩ := (shorter more hlast).block .otherwise hfalse
              exact ⟨t :: (w ++ (v ++ otherwise :: u)), by simp,
                .branchElse hkind hw hv helse hu⟩
            · cases hmore
              exact ⟨t :: (w ++ v), by simp, hshort⟩
      all_goals cases h

theorem statements_takes : Takes (DerivesAt wordOffset .stmts) ts (statements ts).bare := by
  intro ss rest h
  cases ts with
  | nil =>
      rw [statements_nil] at h
      cases h
      exact ⟨[], rfl, .nil⟩
  | cons t ts =>
      rw [statements_cons] at h
      split at h
      · cases h
        exact ⟨[], rfl, .nil⟩
      · obtain ⟨⟨s, ts₁⟩, hs, h⟩ := bind_eq_ok_iff.mp h
        obtain ⟨⟨more, ts₂⟩, hmore, h⟩ := bind_eq_ok_iff.mp h
        cases h
        obtain ⟨w, hts, hw⟩ := statement_takes shorter hs
        obtain ⟨v, rfl, hv⟩ := (shorter ts₁ (Outcome.length_le hs)).statements hmore
        exact ⟨w ++ v, by rw [hts, List.append_assoc], .cons hw hv⟩

theorem block_takes (clause : Clause) :
    Takes (DerivesAt wordOffset .block) ts (block clause ts).bare := by
  intro ss rest h
  rw [block_eq] at h
  obtain ⟨⟨opening, ts₁⟩, hopen, h⟩ := bind_eq_ok_iff.mp h
  obtain ⟨⟨body, ts₂⟩, hbody, h⟩ := bind_eq_ok_iff.mp h
  obtain ⟨⟨closing, ts₃⟩, hclose, h⟩ := bind_eq_ok_iff.mp h
  cases h
  obtain ⟨rfl, hopening⟩ := eq_cons_of_expect hopen
  obtain ⟨w, rfl, hw⟩ := (shorter ts₁ (Nat.lt_succ_self _)).statements hbody
  obtain ⟨rfl, hclosing⟩ := eq_cons_of_expect hclose
  exact ⟨opening :: (w ++ [closing]), by simp, .block hopening hw hclosing⟩

end Step

theorem takesStatements (ts : List Token) : TakesStatements ts := by
  induction hn : ts.length using Nat.strongRecOn generalizing ts with
  | ind n ih =>
      subst hn
      have shorter : ∀ us, us.length < ts.length → TakesStatements us := fun us h => ih _ h us rfl
      exact ⟨statements_takes shorter, block_takes shorter⟩

/-! ## Programs -/

theorem declarations_takes (ts : List Token) :
    Takes DeclarationsAt ts (declarations ts).bare := by
  induction hn : ts.length using Nat.strongRecOn generalizing ts with
  | ind n ih =>
      subst hn
      intro ds rest h
      cases ts with
      | nil =>
          rw [declarations_nil] at h
          cases h
          exact ⟨[], rfl, .nil⟩
      | cons t ts =>
          rw [declarations_cons] at h
          cases hty : tyOf? t.kind <;> rw [hty] at h
          case none =>
            cases h
            exact ⟨[], rfl, .nil⟩
          case some ty =>
            obtain ⟨⟨declared, ts₁⟩, hnames, h⟩ := bind_eq_ok_iff.mp h
            obtain ⟨⟨semicolon, ts₂⟩, hsemi, h⟩ := bind_eq_ok_iff.mp h
            obtain ⟨⟨more, ts₃⟩, hmore, h⟩ := bind_eq_ok_iff.mp h
            cases h
            obtain ⟨w, rfl, hw⟩ := (names_follows ty ts).of_ok hnames
            obtain ⟨rfl, hsemicolon⟩ := eq_cons_of_expect hsemi
            have hlast : ts₂.length < (t :: (w ++ semicolon :: ts₂)).length := by
              simp only [List.length_cons, List.length_append]
              omega
            obtain ⟨v, rfl, hv⟩ := ih ts₂.length hlast ts₂ rfl hmore
            exact ⟨t :: (w ++ semicolon :: v), by simp,
              .cons (tyOf?_eq_some_iff.mp hty) hw hsemicolon hv⟩

theorem program_placed {ts : List Token} {p : Program}
    (h : program ts = .ok (p.decls, p.stmts)) (hpos : ∀ t ∈ ts.head?, p.pos = t.loc.offset) :
    SentenceAt wordOffset ts p := by
  obtain ⟨pos, ds, ss⟩ := p
  rw [program_eq] at h
  obtain ⟨⟨ds', ts₁⟩, hhead, hmore⟩ := bind_eq_ok_iff.mp h
  obtain ⟨⟨ss', ts₂⟩, hss, hdone⟩ := bind_eq_ok_iff.mp hmore
  cases ts₂ with
  | cons t ts₂ => cases hdone
  | nil =>
      cases hdone
      obtain ⟨v, hv, hbody⟩ := (takesStatements ts₁).statements hss
      rw [List.append_nil] at hv
      subst hv
      cases ts with
      | nil =>
          cases hhead
          exact .plain hbody hpos
      | cons t ts =>
          rw [preamble_cons] at hhead
          split at hhead
          · rename_i hkey
            obtain ⟨w, rfl, hw⟩ := declarations_takes ts hhead
            obtain rfl : pos = t.loc.offset := hpos t rfl
            exact .declared hkey hw hbody
          · cases hhead
            exact .plain hbody hpos

end ThreeAddress.Parser

namespace ThreeAddress

open Grammar

theorem program_of_parse {ts : List Token} {p : Program} (h : parse ts = .ok p) :
    Parser.program (sentence ts) = .ok (p.decls, p.stmts) ∧
      ∀ t ∈ (sentence ts).head?, p.pos = t.loc.offset := by
  unfold parse at h
  split at h
  · cases h
  · rename_i ds ss hread
    cases h
    refine ⟨hread, fun t ht => ?_⟩
    rw [List.headD_eq_head?_getD, Option.mem_def.mp ht]
    rfl

/-- An operator of a tree that was read stands at the first token of its phrase that
opens no parenthesis. All other nodes stand at the first token of theirs. Where tokens
stand one behind the other, as those of a text do, the operators that begin with a
parenthesis are hence just those that do not stand at their first token. -/
theorem operators_stand_behind_parentheses {ts : List Token} {p : Program}
    (h : parse ts = .ok p) :
    SentenceAt wordOffset (sentence ts) p ∧
      ((sentence ts).Pairwise (fun t t' => t.loc.offset < t'.loc.offset) →
        ∀ w, w <:+: sentence ts →
          (wordOffset w = firstOffset w ↔ ∀ t ∈ w.head?, t.kind ≠ .lparen)) := by
  obtain ⟨hread, hpos⟩ := program_of_parse h
  refine ⟨Parser.program_placed hread hpos, fun hordered w hw => ?_⟩
  exact wordOffset_eq_firstOffset_iff (hordered.sublist hw.sublist)

/-- The tokens of `x = (a) + b;`. -/
def grouped : List Token :=
  [⟨.ident, "x", ⟨0, 1, 1⟩⟩, ⟨.assign, "=", ⟨2, 1, 3⟩⟩, ⟨.lparen, "(", ⟨4, 1, 5⟩⟩,
    ⟨.ident, "a", ⟨5, 1, 6⟩⟩, ⟨.rparen, ")", ⟨6, 1, 7⟩⟩, ⟨.plus, "+", ⟨8, 1, 9⟩⟩,
    ⟨.ident, "b", ⟨10, 1, 11⟩⟩, ⟨.semicolon, ";", ⟨11, 1, 12⟩⟩, ⟨.eof, "", ⟨12, 1, 13⟩⟩]

/-- The tree of `grouped`. -/
def groupedTree : Program :=
  ⟨0, [], [.assign 0 "x" (.bin 5 .add (.var 5 "a") (.var 10 "b"))]⟩

theorem parse_grouped : parse grouped = .ok groupedTree := by cbv

theorem sum_stands_behind_parenthesis :
    parse grouped = .ok groupedTree ∧ SentenceAt wordOffset (sentence grouped) groupedTree ∧
      ∀ w, w <:+: sentence grouped →
        (wordOffset w = firstOffset w ↔ ∀ t ∈ w.head?, t.kind ≠ .lparen) := by
  obtain ⟨hplaced, hoffsets⟩ := operators_stand_behind_parentheses parse_grouped
  exact ⟨parse_grouped, hplaced, hoffsets (by decide)⟩

/-- The sum begins with the parenthesis at offset 4 and stands at 5. -/
theorem sum_misses_first_token :
    parse grouped = .ok groupedTree ∧ ¬ SentenceAt firstOffset (sentence grouped) groupedTree := by
  refine ⟨parse_grouped, fun h => ?_⟩
  have htokens : sentence grouped = grouped.take 8 := rfl
  rw [htokens] at h
  rcases h.derives_or_declared with hbody | ⟨key, rest, htake, hkey⟩
  · obtain ⟨n, sign, v, semicolon, htake, hv⟩ := hbody.phrase_of_assign
    -- the phrase of the sum is what stands between the sign and the semicolon
    obtain rfl : v = ((grouped.take 8).drop 2).dropLast := by
      have hback := congrArg (fun w => (w.drop 2).dropLast) htake
      simpa using hback.symm
    rcases hv.start_eq_or_group with hpos | ⟨opening, u, closing, hgroup, hclosing⟩
    · cases hpos
    · have hlast := congrArg List.getLast? hgroup
      rw [← List.cons_append, List.getLast?_concat] at hlast
      cases hlast
      cases hclosing
  · cases htake
    cases hkey

end ThreeAddress
