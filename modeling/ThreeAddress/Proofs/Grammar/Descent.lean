import ThreeAddress.Proofs.Grammar.Basic
import ThreeAddress.Proofs.Grammar.Follows
import ThreeAddress.Proofs.Program.Erasure

/-!
# Descending by the grammar

Each parser follows its part of the grammar: what it reads is a phrase, with the
places of its nodes filled in, and where it is stuck the phrase has begun. The
proofs go by the number of tokens, as the parsers do.
-/

namespace ThreeAddress.Parser

open Grammar

/-! ## Words -/

theorem tyOf?_eq_some_iff {kind : Kind} {ty : Ty} : tyOf? kind = some ty ↔ TypeWord kind ty := by
  constructor
  · intro h
    cases kind <;> simp only [tyOf?, Option.some.injEq, reduceCtorEq] at h <;> cases h <;>
      constructor
  · intro h
    cases h <;> rfl

theorem op?_sum_eq_some_iff {kind : Kind} {op : Op} :
    Tier.sum.op? kind = some op ↔ SumOp kind op := by
  constructor
  · intro h
    cases kind <;> simp only [Tier.op?, Option.some.injEq, reduceCtorEq] at h <;> cases h <;>
      constructor
  · intro h
    cases h <;> rfl

theorem op?_product_eq_some_iff {kind : Kind} {op : Op} :
    Tier.product.op? kind = some op ↔ ProductOp kind op := by
  constructor
  · intro h
    cases kind <;> simp only [Tier.op?, Option.some.injEq, reduceCtorEq] at h <;> cases h <;>
      constructor
  · intro h
    cases h <;> rfl

theorem comparison?_eq_some_iff {kind : Kind} {op : Op} :
    comparison? kind = some op ↔ RelOp kind op := by
  constructor
  · intro h
    cases kind <;> simp only [comparison?, Option.some.injEq, reduceCtorEq] at h <;> cases h <;>
      constructor
  · intro h
    cases h <;> rfl

/-! ## Declarations -/

theorem names_follows (ty : Ty) (ts : List Token) :
    Follows Names (fun us => (names ty us).bare) ts := by
  induction hn : ts.length using Nat.strongRecOn generalizing ts with
  | ind n ih =>
      subst hn
      refine .of_eq (fun us _ => names_eq ty us) ?_
      refine .expect ⟨[sample .ident], _, .one rfl⟩ fun name rest hlen hname => ?_
      dsimp only
      cases rest with
      | nil => exact .here (forall_head?_nil rfl) (.one hname)
      | cons t rest =>
          by_cases hcomma : t.kind = .comma
          · refine .cons (fun us => if_pos hcomma) ?_
            exact .map (g := (name.text :: ·)) (ih rest.length (Nat.lt_of_succ_lt hlen) rest rfl)
              fun w ns hw => .more hname hcomma hw
          · exact .here (forall_head?_cons fun us => if_neg hcomma) (.one hname)

theorem declarations_follows (ts : List Token) :
    Follows (fun w ds => Declarations w (ds.map Decl.erase))
      (fun us => (declarations us).bare) ts := by
  induction hn : ts.length using Nat.strongRecOn generalizing ts with
  | ind n ih =>
      subst hn
      cases ts with
      | nil => exact .here (forall_head?_nil declarations_nil) .nil
      | cons t ts =>
          cases hty : tyOf? t.kind with
          | none =>
              refine .here (x := []) (forall_head?_cons fun us => ?_) .nil
              rw [declarations_cons, hty]
          | some ty =>
              have hword := tyOf?_eq_some_iff.mp hty
              refine .cons (fun us => (declarations_cons t us).trans (by rw [hty])) ?_
              have hclose : ∀ w ns, Names w ns → Begins
                  (fun v (ds : List Decl) => Declarations (t :: v) (ds.map Decl.erase)) w := by
                intro w ns hw
                exact ⟨[sample .semicolon], [⟨0, ty, ns⟩], .cons hword hw rfl .nil⟩
              refine .bind (names_follows ty ts) hclose fun w ns ts₁ hnames hw => ?_
              dsimp only
              refine .expect (hclose w ns hw) fun semicolon ts₂ hlen hsemi => ?_
              have hlen' := Outcome.length_le hnames
              have hlast : ts₂.length < (t :: ts).length := by
                rw [List.length_cons]
                omega
              refine .map (g := (⟨t.loc.offset, ty, ns⟩ :: ·)) (ih ts₂.length hlast ts₂ rfl) ?_
              intro v ds hv
              exact .cons hword hw hsemi hv

/-! ## Expressions -/

/-- What the operators of a tier make. -/
def Tier.level : Tier → Level
  | .sum => .expr
  | .product => .term

/-- What the operators of a tier join. -/
def Tier.below : Tier → Level
  | .sum => .term
  | .product => .factor

theorem phrase_of_below {tier : Tier} {w : List Token} {x : Expr} (h : Phrase tier.below w x) :
    Phrase tier.level w x := by
  cases tier with
  | sum => exact .expr h
  | product => exact .term h

theorem phrase_of_op {tier : Tier} {t : Token} {op : Op} {w v : List Token} {x y : Expr}
    (hop : tier.op? t.kind = some op) (hx : Phrase tier.level w x) (hy : Phrase tier.below v y) :
    Phrase tier.level (w ++ t :: v) (.bin 0 op x y) := by
  cases tier with
  | sum => exact .sum hx (op?_sum_eq_some_iff.mp hop) hy
  | product => exact .product hx (op?_product_eq_some_iff.mp hop) hy

theorem sample_phrase : Phrase .expr [sample .ident] (.var 0 "") := .expr (.term (.ident rfl))

/-- The parsers of expressions follow the grammar before `ts`. Further operands
are joined to a phrase `v` that was read before. -/
structure FollowsPhrases (ts : List Token) : Prop where
  factor : Follows (fun w x => Phrase .factor w x.erase) (fun us => (factor us).bare) ts
  chain : ∀ tier, Follows (fun w x => Phrase tier.level w x.erase)
    (fun us => (chain tier us).bare) ts
  joined : ∀ {tier left v}, Phrase tier.level v left.erase →
    Follows (fun w x => Phrase tier.level (v ++ w) x.erase)
      (fun us => (joined tier left us).bare) ts

theorem FollowsPhrases.operand {ts : List Token} (h : FollowsPhrases ts) (tier : Tier) :
    Follows (fun w x => Phrase tier.below w x.erase) (fun us => (operand tier us).bare) ts := by
  cases tier with
  | sum => exact .of_eq (fun us _ => by rw [operand_sum]) (h.chain .product)
  | product => exact .of_eq (fun us _ => by rw [operand_product]) h.factor

section Step

-- One round of the induction: all shorter lists of tokens are settled.
variable {ts : List Token} (shorter : ∀ us, us.length < ts.length → FollowsPhrases us)
include shorter

theorem factor_follows :
    Follows (fun w x => Phrase .factor w x.erase) (fun us => (factor us).bare) ts := by
  have hbegins : Begins (fun w (x : Expr) => Phrase .factor w x.erase) [] :=
    ⟨[sample .ident], .var 0 "", .ident rfl⟩
  cases ts with
  | nil => exact .fails _ (forall_head?_nil factor_nil) hbegins
  | cons t ts =>
      cases hkind : t.kind
      case ident =>
        refine .cons (fun us => (factor_cons t us).trans (by rw [hkind])) ?_
        exact .here (fun us _ => rfl) (.ident hkind)
      case number =>
        refine .cons (fun us => (factor_cons t us).trans (by rw [hkind])) ?_
        exact .here (fun us _ => rfl) (.number hkind)
      case lparen =>
        refine .cons (fun us => (factor_cons t us).trans (by rw [hkind])) ?_
        refine .bind ((shorter ts (Nat.lt_succ_self _)).chain .sum) ?_ fun w x ts₁ _ hw => ?_
        · intro w x hw
          exact ⟨[sample .rparen], x, .group hkind hw rfl⟩
        dsimp only
        exact .closing fun close hclose => .group hkind hw hclose
      all_goals
        refine .fails .expression (forall_head?_cons fun us => ?_) hbegins
        rw [factor_cons, hkind]

theorem joined_follows {tier : Tier} {left : Expr} {v : List Token}
    (hleft : Phrase tier.level v left.erase) :
    Follows (fun w x => Phrase tier.level (v ++ w) x.erase)
      (fun us => (joined tier left us).bare) ts := by
  have hstop : Phrase tier.level (v ++ []) left.erase := by rwa [List.append_nil]
  cases ts with
  | nil => exact .here (forall_head?_nil (joined_nil tier left)) hstop
  | cons t ts =>
      cases hop : tier.op? t.kind with
      | none =>
          refine .here (forall_head?_cons fun us => ?_) hstop
          rw [joined_cons, hop]
      | some op =>
          refine .cons (fun us => (joined_cons tier left t us).trans (by rw [hop])) ?_
          refine .bind ((shorter ts (Nat.lt_succ_self _)).operand tier) ?_
            fun w right ts₁ hright hw => ?_
          · intro w right hw
            refine ⟨[], .bin left.pos op left right, ?_⟩
            rw [List.append_nil]
            exact phrase_of_op hop hleft hw
          -- the operand is joined to what was read before, and the chain goes on behind it
          have hlen := Outcome.length_le hright
          have hwhole : Phrase tier.level (v ++ t :: w) (Expr.bin left.pos op left right).erase :=
            phrase_of_op hop hleft hw
          have hmore := (shorter ts₁ (Nat.lt_succ_of_lt hlen)).joined hwhole
          simpa using hmore

/-- A chain follows the grammar if its first operand does. That operand stands
before the same tokens as the chain, so it is not settled by being shorter. -/
theorem chain_follows {tier : Tier}
    (first : Follows (fun w x => Phrase tier.below w x.erase)
      (fun us => (operand tier us).bare) ts) :
    Follows (fun w x => Phrase tier.level w x.erase) (fun us => (chain tier us).bare) ts := by
  refine .of_eq (fun us _ => chain_eq tier us) ?_
  refine .bind first ?_ fun w x ts₁ hread hw => ?_
  · intro w x hw
    refine ⟨[], x, ?_⟩
    rw [List.append_nil]
    exact phrase_of_below hw
  · -- behind the first operand the tokens are fewer
    have hlen := Outcome.length_le hread
    exact (shorter ts₁ (by omega)).joined (phrase_of_below hw)

theorem product_follows :
    Follows (fun w x => Phrase .term w x.erase) (fun us => (chain .product us).bare) ts :=
  @chain_follows ts shorter .product
    (.of_eq (fun us _ => by rw [operand_product]) (factor_follows shorter))

theorem sum_follows :
    Follows (fun w x => Phrase .expr w x.erase) (fun us => (chain .sum us).bare) ts :=
  @chain_follows ts shorter .sum
    (.of_eq (fun us _ => by rw [operand_sum]) (product_follows shorter))

end Step

theorem followsPhrases (ts : List Token) : FollowsPhrases ts := by
  induction hn : ts.length using Nat.strongRecOn generalizing ts with
  | ind n ih =>
      subst hn
      have shorter : ∀ us, us.length < ts.length → FollowsPhrases us := fun us h => ih _ h us rfl
      refine ⟨factor_follows shorter, fun tier => ?_, joined_follows shorter⟩
      cases tier with
      | sum => exact sum_follows shorter
      | product => exact product_follows shorter

theorem expression_follows (ts : List Token) :
    Follows (fun w x => Phrase .expr w x.erase) (fun us => (expression us).bare) ts :=
  (followsPhrases ts).chain .sum

/-- The tokens are a comparison in parentheses. -/
def Enclosed (w : List Token) (x : Expr) : Prop :=
  ∃ opening v closing, w = opening :: (v ++ [closing]) ∧ opening.kind = .lparen ∧
    Relation v x ∧ closing.kind = .rparen

theorem relation_follows (ts : List Token) :
    Follows (fun w x => Relation w x.erase) (fun us => (relation us).bare) ts := by
  have hclose : ∀ w (x : Expr), Phrase .expr w x.erase →
      Begins (fun v (y : Expr) => Relation v y.erase) w := by
    intro w x hw
    exact ⟨[sample .less, sample .ident], .bin 0 .lt x (.var 0 ""),
      .compare hw .less sample_phrase⟩
  refine .of_eq (fun us _ => relation_eq us) ?_
  refine .bind (expression_follows ts) hclose fun w x rest _ hw => ?_
  dsimp only
  cases rest with
  | nil => exact .fails .comparison (forall_head?_nil rfl) (hclose w x hw)
  | cons t rest =>
      cases hop : comparison? t.kind with
      | none =>
          refine .fails .comparison (forall_head?_cons fun us => ?_) (hclose w x hw)
          simp only [hop]
      | some op =>
          refine .cons (q := fun us => (expression us).bare >>= fun right =>
            .ok (.bin x.pos op x right.1, right.2)) (fun us => by simp only [hop]) ?_
          refine .map (g := Expr.bin x.pos op x) (expression_follows rest) ?_
          intro v y hv
          exact .compare hw (comparison?_eq_some_iff.mp hop) hv

theorem condition_follows (clause : Clause) (ts : List Token) :
    Follows (fun w x => Enclosed w x.erase) (fun us => (condition clause us).bare) ts := by
  refine .of_eq (fun us _ => condition_eq clause us) ?_
  refine .expect ?_ fun opening ts₁ _ hopen => ?_
  · have hrel : Relation [sample .ident, sample .less, sample .ident]
        (.bin 0 .lt (.var 0 "") (.var 0 "")) :=
      .compare sample_phrase .less sample_phrase
    exact ⟨[sample .lparen, sample .ident, sample .less, sample .ident, sample .rparen],
      .bin 0 .lt (.var 0 "") (.var 0 ""), _, _, _, rfl, rfl, hrel, rfl⟩
  dsimp only
  refine .bind (relation_follows ts₁) ?_ fun w x ts₂ _ hw => ?_
  · intro w x hw
    exact ⟨[sample .rparen], x, _, w, _, rfl, hopen, hw, rfl⟩
  · exact .closing fun closing hclose => ⟨opening, w, closing, rfl, hopen, hw, hclose⟩

/-! ## Statements -/

section Derives

variable {key : Token} {w v u : List Token} {x : Expr} {onTrue onFalse : List Stmt}

theorem derives_loop (hkey : key.kind = .keyWhile) (hw : Enclosed w x)
    (hv : Derives .block v onTrue) : Derives .stmt (key :: (w ++ v)) (.loop 0 x onTrue) := by
  obtain ⟨opening, w, closing, rfl, hopen, hrel, hclose⟩ := hw
  simpa using Derives.loop hkey hopen hrel hclose hv

theorem derives_branch (hkey : key.kind = .keyIf) (hw : Enclosed w x)
    (hv : Derives .block v onTrue) : Derives .stmt (key :: (w ++ v)) (.branch 0 x onTrue []) := by
  obtain ⟨opening, w, closing, rfl, hopen, hrel, hclose⟩ := hw
  simpa using Derives.branch hkey hopen hrel hclose hv

theorem derives_branchElse {otherwise : Token} (hkey : key.kind = .keyIf) (hw : Enclosed w x)
    (hv : Derives .block v onTrue) (helse : otherwise.kind = .keyElse)
    (hu : Derives .block u onFalse) :
    Derives .stmt (key :: (w ++ (v ++ otherwise :: u))) (.branch 0 x onTrue onFalse) := by
  obtain ⟨opening, w, closing, rfl, hopen, hrel, hclose⟩ := hw
  simpa using Derives.branchElse hkey hopen hrel hclose hv helse hu

end Derives

theorem assignment_follows {name : Token} (hname : name.kind = .ident) (ts : List Token) :
    Follows (fun w s => Derives .stmt (name :: w) s.erase)
      (fun us => (assignment name us).bare) ts := by
  refine .of_eq (fun us _ => assignment_eq name us) ?_
  refine .expect ?_ fun sign ts₁ _ hsign => ?_
  · exact ⟨[sample .assign, sample .ident, sample .semicolon], .assign 0 name.text (.var 0 ""),
      .assign hname rfl sample_phrase rfl⟩
  dsimp only
  refine .bind (expression_follows ts₁) ?_ fun w x ts₂ _ hw => ?_
  · intro w x hw
    exact ⟨[sample .semicolon], .assign 0 name.text x, .assign hname hsign hw rfl⟩
  dsimp only
  exact .closing fun semicolon hsemi => .assign hname hsign hw hsemi

/-- The parsers of statements follow the grammar before `ts`. -/
structure FollowsStatements (ts : List Token) : Prop where
  statement : Follows (fun w s => Derives .stmt w s.erase) (fun us => (statement us).bare) ts
  statements : Follows (fun w ss => Derives .stmts w (Stmt.eraseAll ss))
    (fun us => (statements us).bare) ts
  block : ∀ clause, Follows (fun w ss => Derives .block w (Stmt.eraseAll ss))
    (fun us => (block clause us).bare) ts

section Step

variable {ts : List Token} (shorter : ∀ us, us.length < ts.length → FollowsStatements us)
include shorter

theorem statement_follows :
    Follows (fun w s => Derives .stmt w s.erase) (fun us => (statement us).bare) ts := by
  have hbegins : Begins (fun w (s : Stmt) => Derives .stmt w s.erase) [] :=
    ⟨[sample .ident, sample .assign, sample .ident, sample .semicolon],
      .assign 0 "" (.var 0 ""), .assign rfl rfl sample_phrase rfl⟩
  have hblock : Derives .block [sample .lbrace, sample .rbrace] [] := .block rfl .nil rfl
  cases ts with
  | nil => exact .fails .statement (forall_head?_nil statement_nil) hbegins
  | cons t ts =>
      cases hkind : t.kind
      case ident =>
        refine .cons (fun us => (statement_cons t us).trans (by rw [hkind])) ?_
        exact assignment_follows hkind ts
      case keyWhile =>
        refine .cons (fun us => (statement_cons t us).trans (by rw [hkind])) ?_
        refine .bind (condition_follows .loop ts) ?_ fun w x ts₁ hcond hw => ?_
        · intro w x hw
          exact ⟨_, .loop 0 x [], derives_loop hkind hw hblock⟩
        have hlen := Nat.lt_succ_of_lt (Outcome.length_le hcond)
        refine .map (g := Stmt.loop t.loc.offset x) ((shorter ts₁ hlen).block .loop) ?_
        intro v body hv
        exact derives_loop hkind hw hv
      case keyIf =>
        refine .cons (fun us => (statement_cons t us).trans (by rw [hkind])) ?_
        refine .bind (condition_follows .branch ts) ?_ fun w x ts₁ hcond hw => ?_
        · intro w x hw
          exact ⟨_, .branch 0 x [] [], derives_branch hkind hw hblock⟩
        have hlen := Nat.lt_succ_of_lt (Outcome.length_le hcond)
        have hshort : ∀ v onTrue, Derives .block v (Stmt.eraseAll onTrue) →
            Derives .stmt (t :: (w ++ (v ++ []))) (Stmt.branch t.loc.offset x onTrue []).erase := by
          intro v onTrue hv
          rw [List.append_nil]
          exact derives_branch hkind hw hv
        dsimp only
        refine .bind ((shorter ts₁ hlen).block .branch)
          (fun v onTrue hv => ⟨[], _, hshort v onTrue hv⟩) fun v onTrue ts₂ htrue hv => ?_
        -- the two ways to have no else part: the tokens are used up, or another one follows
        dsimp only
        cases ts₂ with
        | nil => exact .here (forall_head?_nil rfl) (hshort v onTrue hv)
        | cons otherwise more =>
            by_cases helse : otherwise.kind = .keyElse
            · have hlen' := Outcome.length_le htrue
              have hlast : more.length < (t :: ts).length := by
                simp only [List.length_cons] at hlen' ⊢
                omega
              refine .cons (fun us => if_pos helse) ?_
              refine .map (g := Stmt.branch t.loc.offset x onTrue)
                ((shorter more hlast).block .otherwise) ?_
              intro u onFalse hu
              exact derives_branchElse hkind hw hv helse hu
            · exact .here (forall_head?_cons fun us => if_neg helse) (hshort v onTrue hv)
      all_goals
        refine .fails .statement (forall_head?_cons fun us => ?_) hbegins
        rw [statement_cons, hkind]

theorem statements_follows
    (first : Follows (fun w s => Derives .stmt w s.erase) (fun us => (statement us).bare) ts) :
    Follows (fun w ss => Derives .stmts w (Stmt.eraseAll ss))
      (fun us => (statements us).bare) ts := by
  cases ts with
  | nil => exact .here (forall_head?_nil statements_nil) .nil
  | cons t ts =>
      by_cases hbrace : t.kind = .rbrace
      · refine .here (x := []) (forall_head?_cons fun us => ?_) .nil
        rw [statements_cons, if_pos hbrace]
      · refine .of_eq (q := fun us => (statement us).bare >>= fun s =>
            (statements s.2).bare >>= fun more => .ok (s.1 :: more.1, more.2))
          (forall_head?_cons fun us => (statements_cons t us).trans (if_neg hbrace)) ?_
        refine .bind first ?_ fun w s ts₁ hread hw => ?_
        · intro w s hw
          exact ⟨[], [s], .cons hw .nil⟩
        have hlen := Outcome.length_le hread
        refine .map (g := (s :: ·)) (shorter ts₁ hlen).statements ?_
        intro v ss hv
        exact .cons hw hv

theorem block_follows (clause : Clause) :
    Follows (fun w ss => Derives .block w (Stmt.eraseAll ss))
      (fun us => (block clause us).bare) ts := by
  refine .of_eq (fun us _ => block_eq clause us) ?_
  refine .expect ⟨[sample .lbrace, sample .rbrace], [], .block rfl .nil rfl⟩
    fun opening ts₁ hlen hopen => ?_
  dsimp only
  refine .bind (shorter ts₁ hlen).statements ?_ fun w ss _ _ hw => ?_
  · intro w ss hw
    exact ⟨[sample .rbrace], ss, .block hopen hw rfl⟩
  · exact .closing fun closing hclose => .block hopen hw hclose

end Step

theorem followsStatements (ts : List Token) : FollowsStatements ts := by
  induction hn : ts.length using Nat.strongRecOn generalizing ts with
  | ind n ih =>
      subst hn
      have shorter : ∀ us, us.length < ts.length → FollowsStatements us :=
        fun us h => ih _ h us rfl
      exact ⟨statement_follows shorter, statements_follows shorter (statement_follows shorter),
        block_follows shorter⟩

/-! ## Programs -/

/-- What comes before the statements of a program. -/
def Heads (w : List Token) (ds : List Decl) : Prop :=
  ∀ v ss, Derives .stmts v ss → Sentence (w ++ v) ⟨0, ds.map Decl.erase, ss⟩

theorem preamble_follows (ts : List Token) : Follows Heads preamble ts := by
  cases ts with
  | nil => exact .here (forall_head?_nil preamble_nil) fun v ss hv => .plain hv
  | cons t ts =>
      by_cases hkey : t.kind = .keyVar
      · refine .cons (fun us => (preamble_cons t us).trans (if_pos hkey)) ?_
        exact (declarations_follows ts).imp fun w ds hw v ss hv => .declared hkey hw hv
      · exact .here (forall_head?_cons fun us => (preamble_cons t us).trans (if_neg hkey))
          fun v ss hv => .plain hv

/-- The parser of programs in the form of the others: it leaves no tokens. -/
def whole (ts : List Token) : Except Stuck ((List Decl × List Stmt) × List Token) :=
  (program ts).map fun p => (p, [])

theorem whole_eq (ts : List Token) :
    whole ts =
      preamble ts >>= fun head =>
      (statements head.2).bare >>= fun body =>
        match body.2 with
        | [] => .ok ((head.1, body.1), [])
        | t :: more => .error ⟨.topLevel t.kind, t :: more⟩ := by
  rw [whole, program_eq]
  cases preamble ts with
  | error s => rfl
  | ok head =>
      rw [ok_bind, ok_bind]
      cases (statements head.2).bare with
      | error s => rfl
      | ok body =>
          obtain ⟨ss, rest⟩ := body
          cases rest <;> rfl

theorem whole_follows (ts : List Token) :
    Follows (fun w p => Sentence w ⟨0, p.1.map Decl.erase, Stmt.eraseAll p.2⟩) whole ts := by
  refine .of_eq (fun us _ => whole_eq us) ?_
  refine .bind (preamble_follows ts) ?_ fun w ds ts₁ _ hw => ?_
  · intro w ds hw
    exact ⟨[], (ds, []), hw [] [] .nil⟩
  dsimp only
  have hbody : ∀ v ss, Derives .stmts v (Stmt.eraseAll ss) →
      Sentence (w ++ (v ++ [])) ⟨0, ds.map Decl.erase, Stmt.eraseAll ss⟩ := by
    intro v ss hv
    rw [List.append_nil]
    exact hw v _ hv
  refine .bind (followsStatements ts₁).statements (fun v ss hv => ⟨[], (ds, ss), hbody v ss hv⟩)
    fun v ss ts₂ _ hv => ?_
  cases ts₂ with
  | nil => exact .here (forall_head?_nil rfl) (hbody v ss hv)
  | cons t ts₂ =>
      exact .fails (.topLevel t.kind) (forall_head?_cons fun us => rfl)
        ⟨[], (ds, ss), hbody v ss hv⟩

theorem whole_eq_error_iff {ts : List Token} {stuck : Stuck} :
    whole ts = .error stuck ↔ program ts = .error stuck := by
  unfold whole
  cases program ts with
  | error s => simp [Except.map]
  | ok p => simp [Except.map]

/-- A program that was read follows the grammar, to the last token. -/
theorem program_sentence {ts : List Token} {ds : List Decl} {ss : List Stmt}
    (h : program ts = .ok (ds, ss)) :
    Sentence ts ⟨0, ds.map Decl.erase, Stmt.eraseAll ss⟩ := by
  have hwhole : whole ts = .ok ((ds, ss), []) := by rw [whole, h]; rfl
  obtain ⟨w, hts, hw⟩ := (whole_follows ts).of_ok hwhole
  rw [List.append_nil] at hts
  subst hts
  exact hw

/-- A program that cannot be read is stuck somewhere inside its tokens. What
stands before that place is the start of a sentence; and it cannot be read
either with other tokens behind the one at that place. -/
theorem stuck_of_program_error {ts : List Token} {stuck : Stuck}
    (h : program ts = .error stuck) :
    ∃ w, ts = w ++ stuck.rest ∧ (∃ more p, Sentence (w ++ more) p) ∧
      ∀ us, us.head? = stuck.rest.head? → program (w ++ us) = .error ⟨stuck.reason, us⟩ := by
  obtain ⟨w, hts, ⟨more, x, hx⟩, hagain⟩ :=
    (whole_follows ts).of_error (whole_eq_error_iff.mpr h)
  exact ⟨w, hts, ⟨more, _, hx⟩, fun us hus => whole_eq_error_iff.mp (hagain us hus)⟩

end ThreeAddress.Parser
