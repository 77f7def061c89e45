import ThreeAddress.Proofs.Grammar.Walk

/-!
# Walks and parsers agree

A walk over tokens does what the parser of the same name does on the tokens that are
left (`Tape.Agrees`). Where the parser has a list, the walk has the position of that
list in the tokens, and where the list is empty it stands before the first end of
input. So every look finds a token, and the walk comes to an end because the parser
does. Along the way each event is one that the tape allows (`Tape.Allows`).

The lemmas on single steps and on steps in a row come first; after them each
procedure is taken through its steps once.
-/

namespace ThreeAddress

open ThreeAddress.Parser (Tier Stuck Outcome tyOf? comparison?)

namespace Walk

variable {α β : Type}

theorem runFrom_bind_of_ok {m : Walk α} {f : α → Walk β} {s s' : State} {x : α}
    (h : runFrom s m = (.ok x, s')) : runFrom s (m >>= f) = runFrom s' (f x) := by
  show (ExceptT.bindCont f (runFrom s m).1 : StateM State _) (runFrom s m).2 = _
  rw [h]
  rfl

theorem runFrom_bind_of_error {m : Walk α} {f : α → Walk β} {s s' : State} {e : Halt}
    (h : runFrom s m = (.error e, s')) : runFrom s (m >>= f) = (.error e, s') := by
  show (ExceptT.bindCont f (runFrom s m).1 : StateM State _) (runFrom s m).2 = _
  rw [h]
  rfl

end Walk

/-! ## Tapes -/

/-- Tokens with an end of input: the input proper, the first end of input and what
stands beyond it. -/
structure Tape where
  input : List Token
  eof : Token
  beyond : List Token
  proper : Proper input
  isEof : eof.kind = .eof

namespace Tape

variable {α β : Type} {T : Tape} {ts : List Token}

def tokens (T : Tape) : List Token := T.input ++ T.eof :: T.beyond

/-- The position of the tokens that are left of the input. -/
def place (T : Tape) (ts : List Token) : Nat := T.input.length - ts.length

/-- A walk that stands before the tokens that are left of the input. -/
def before (T : Tape) (ts : List Token) (trace : List Walk.Event) : Walk.State :=
  ⟨T.tokens, T.place ts, trace⟩

/-- Nothing behind the first end of input is looked at or moved to, and loops and
descents go forward. -/
def Allows (T : Tape) : Walk.Event → Prop
  | .look i | .move i => i ≤ T.input.length
  | .round start stop => start < stop
  | .descent start inside => start < inside

/-- The tokens left where a parser ends. -/
def left : Except Stuck (α × List Token) → List Token
  | .ok (_, rest) => rest
  | .error stuck => stuck.rest

/-- What a parser's outcome is to a walk. -/
def outcome (T : Tape) : Except Stuck (α × List Token) → Except Walk.Halt α
  | .ok (x, _) => .ok x
  | .error stuck => .error (.syntaxError ⟨stuck.reason, stuck.rest.headD T.eof⟩)

/-- Before the tokens `ts` of the input the walk does what a parser does that has the
outcome `o` there, and it does nothing that is not allowed. -/
def Agrees (T : Tape) (m : Walk α) (o : Except Stuck (α × List Token)) (ts : List Token) : Prop :=
  ts <:+ T.input → ∃ done, (∀ e ∈ done, T.Allows e) ∧ left o <:+ ts ∧
    ∀ trace, Walk.runFrom (T.before ts trace) m =
      (T.outcome o, T.before (left o) (trace ++ done))

theorem getElem?_place (h : ts <:+ T.input) : T.tokens[T.place ts]? = some (ts.headD T.eof) := by
  obtain ⟨past, hpast⟩ := h
  have hplace : T.place ts = past.length := by
    rw [place, ← hpast, List.length_append]
    omega
  rw [hplace, tokens, ← hpast, List.append_assoc, List.getElem?_append_right (Nat.le_refl _),
    Nat.sub_self]
  cases ts with
  | nil => rfl
  | cons t ts => rfl

theorem place_le (T : Tape) (ts : List Token) : T.place ts ≤ T.input.length := Nat.sub_le _ _

/-- Fewer tokens are left further on. -/
theorem place_lt {rest : List Token} (hts : ts <:+ T.input) (hlen : rest.length < ts.length) :
    T.place ts < T.place rest := by
  have hle := hts.length_le
  rw [place, place]
  omega

theorem place_cons {t : Token} (hts : t :: ts <:+ T.input) :
    T.place (t :: ts) + 1 = T.place ts := by
  have hle := hts.length_le
  rw [List.length_cons] at hle
  rw [place, place, List.length_cons]
  omega

theorem ne_eof {t : Token} (hts : t :: ts <:+ T.input) : t.kind ≠ .eof :=
  T.proper t (hts.subset List.mem_cons_self)

namespace Agrees

variable {m : Walk α} {f : α → Walk β} {o : Except Stuck (α × List Token)}

theorem of_suffix (h : ts <:+ T.input → T.Agrees m o ts) : T.Agrees m o ts :=
  fun hts => h hts hts

theorem length_le {x : α} {rest : List Token} (h : T.Agrees m (.ok (x, rest)) ts)
    (hts : ts <:+ T.input) : rest.length ≤ ts.length := by
  obtain ⟨-, -, hleft, -⟩ := h hts
  exact List.IsSuffix.length_le hleft

/-- A walk that stays where it is and writes nothing down. -/
theorem of_run (hleft : left o = ts)
    (hrun : ∀ trace, Walk.runFrom (T.before ts trace) m = (T.outcome o, T.before ts trace)) :
    T.Agrees m o ts := by
  subst hleft
  intro _
  refine ⟨[], fun _ he => absurd he List.not_mem_nil, List.suffix_refl _, fun trace => ?_⟩
  rw [List.append_nil]
  exact hrun trace

protected theorem pure (x : α) : T.Agrees (pure x) (.ok (x, ts)) ts :=
  .of_run rfl fun _ => rfl

/-- Two walks in a row, and two parsers in a row. -/
theorem bind {g : α × List Token → Except Stuck (β × List Token)} (hm : T.Agrees m o ts)
    (hf : ∀ x rest, o = .ok (x, rest) → T.Agrees (f x) (g (x, rest)) rest) :
    T.Agrees (m >>= f) (o >>= g) ts := by
  intro hts
  obtain ⟨done, hdone, hleft, hrun⟩ := hm hts
  cases o with
  | error stuck => exact ⟨done, hdone, hleft, fun trace => Walk.runFrom_bind_of_error (hrun trace)⟩
  | ok r =>
      obtain ⟨x, rest⟩ := r
      obtain ⟨more, hmore, hleft', hrun'⟩ := hf x rest rfl (List.IsSuffix.trans hleft hts)
      refine ⟨done ++ more, List.forall_mem_append.mpr ⟨hdone, hmore⟩, hleft'.trans hleft,
        fun trace => ?_⟩
      rw [Walk.runFrom_bind_of_ok (hrun trace), ← List.append_assoc]
      exact hrun' (trace ++ done)

/-- A step of the walk alone. -/
theorem step {o : Except Stuck (β × List Token)} {x : α} {rest : List Token}
    (hm : T.Agrees m (.ok (x, rest)) ts) (hf : T.Agrees (f x) o rest) :
    T.Agrees (m >>= f) o ts := by
  refine @Agrees.bind α β T ts m f (.ok (x, rest)) (fun _ => o) hm ?_
  rintro _ _ ⟨⟩
  exact hf

end Agrees

/-! ## Single steps -/

theorem here_agrees : T.Agrees Walk.here (.ok (T.place ts, ts)) ts :=
  .of_run rfl fun _ => rfl

theorem record_agrees {e : Walk.Event} (he : T.Allows e) :
    T.Agrees (Walk.record e) (.ok ((), ts)) ts := by
  intro _
  refine ⟨[e], by simpa using he, List.suffix_refl ts, fun trace => ?_⟩
  rfl

theorem look_agrees : T.Agrees Walk.look (.ok (ts.headD T.eof, ts)) ts := by
  intro hts
  refine ⟨[.look (T.place ts)], by simpa [Allows] using T.place_le ts, List.suffix_refl ts,
    fun trace => ?_⟩
  have hstate : Walk.runFrom (T.before ts trace) get =
      (.ok (T.before ts trace), T.before ts trace) := rfl
  have htoken : (T.before ts trace).tokens[(T.before ts trace).pos]? = some (ts.headD T.eof) :=
    getElem?_place hts
  rw [Walk.look, Walk.runFrom_bind_of_ok hstate, htoken]
  rfl

theorem move_agrees {t : Token} : T.Agrees (Walk.move (T.place ts)) (.ok ((), ts)) (t :: ts) := by
  intro _
  refine ⟨[.move (T.place ts)], by simpa [Allows] using T.place_le ts, List.suffix_cons t ts,
    fun trace => ?_⟩
  rfl

/-- A token of the input is no end of input, and is taken. -/
theorem next_agrees {t : Token} : T.Agrees Walk.next (.ok (t, ts)) (t :: ts) := by
  refine .of_suffix fun hts => ?_
  rw [Walk.next]
  refine .step look_agrees ?_
  dsimp only [List.headD_cons]
  rw [if_pos (ne_eof hts)]
  refine .step here_agrees ?_
  rw [place_cons hts]
  exact .step move_agrees (.pure t)

theorem blame_agrees (reason : Reason) :
    T.Agrees (Walk.blame reason : Walk α) (.error ⟨reason, ts⟩) ts := by
  rw [Walk.blame]
  exact .step look_agrees (.of_run rfl fun _ => rfl)

theorem sees_agrees {kind : Kind} :
    T.Agrees (Walk.sees kind) (.ok (decide ((ts.headD T.eof).kind = kind), ts)) ts := by
  rw [Walk.sees]
  exact .step look_agrees (.pure _)

section Tests

variable {f : Bool → Walk β} {o : Except Stuck (β × List Token)} {kind kind' : Kind}

/-- The two ways on from a test. -/
theorem Agrees.sees (hyes : (ts.headD T.eof).kind = kind → T.Agrees (f true) o ts)
    (hno : (ts.headD T.eof).kind ≠ kind → T.Agrees (f false) o ts) :
    T.Agrees (Walk.sees kind >>= f) o ts := by
  refine .step sees_agrees ?_
  by_cases h : (ts.headD T.eof).kind = kind
  · rw [decide_eq_true h]
    exact hyes h
  · rw [decide_eq_false h]
    exact hno h

/-- Of two tests the second is made if the first one fails. -/
theorem Agrees.seesEither
    (hyes : (ts.headD T.eof).kind = kind ∨ (ts.headD T.eof).kind = kind' → T.Agrees (f true) o ts)
    (hno : (ts.headD T.eof).kind ≠ kind → (ts.headD T.eof).kind ≠ kind' → T.Agrees (f false) o ts) :
    T.Agrees ((Walk.sees kind <||> Walk.sees kind') >>= f) o ts := by
  by_cases h : (ts.headD T.eof).kind = kind
  · exact .step (.sees (fun _ => .pure true) (fun hne => absurd h hne)) (hyes (.inl h))
  · have hsecond : T.Agrees (Walk.sees kind <||> Walk.sees kind')
        (.ok (decide ((ts.headD T.eof).kind = kind'), ts)) ts :=
      .sees (fun heq => absurd heq h) (fun _ => sees_agrees)
    refine .step hsecond ?_
    by_cases h' : (ts.headD T.eof).kind = kind'
    · rw [decide_eq_true h']
      exact hyes (.inr h')
    · rw [decide_eq_false h']
      exact hno h h'

end Tests

theorem accept_agrees {kind : Kind} {t : Token} (h : t.kind = kind) :
    T.Agrees (Walk.accept kind) (.ok (true, ts)) (t :: ts) := by
  rw [Walk.accept]
  exact .sees (fun _ => .step next_agrees (.pure true)) (fun hne => absurd h hne)

theorem not_accept_agrees {kind : Kind} (h : (ts.headD T.eof).kind ≠ kind) :
    T.Agrees (Walk.accept kind) (.ok (false, ts)) ts := by
  rw [Walk.accept]
  exact .sees (fun heq => absurd heq h) (fun _ => .pure false)

/-- Before the end of input nothing else is taken. -/
theorem not_accept_nil {kind : Kind} (hkind : kind ≠ .eof) :
    T.Agrees (Walk.accept kind) (.ok (false, [])) [] := by
  refine not_accept_agrees ?_
  rw [List.headD_nil, T.isEof]
  exact hkind.symm

theorem expect_agrees {kind : Kind} {reason : Reason} (hkind : kind ≠ .eof) :
    T.Agrees (Walk.expect kind reason) (Parser.expect kind reason ts).bare ts := by
  rw [Walk.expect]
  cases ts with
  | nil =>
      refine .sees (fun heq => ?_) (fun _ => blame_agrees reason)
      exact absurd (heq.symm.trans T.isEof) hkind
  | cons t ts =>
      rw [Parser.expect_cons]
      refine .sees (fun (heq : t.kind = kind) => ?_) (fun (hne : t.kind ≠ kind) => ?_)
      · rw [if_pos heq]
        exact next_agrees
      · rw [if_neg hne]
        exact blame_agrees reason

section Rounds

variable {rest : List Token} (hts : ts <:+ T.input) (hlen : rest.length < ts.length)
include hts hlen

theorem endRound_agrees : T.Agrees (Walk.endRound (T.place ts)) (.ok ((), rest)) rest := by
  rw [Walk.endRound]
  exact .step here_agrees (record_agrees (place_lt hts hlen))

theorem descend_agrees : T.Agrees (Walk.descend (T.place ts)) (.ok ((), rest)) rest := by
  rw [Walk.descend]
  exact .step here_agrees (record_agrees (place_lt hts hlen))

end Rounds

/-! ## Declarations -/

theorem names_agrees (ty : Ty) {depth : Nat} {ts : List Token} (hdepth : ts.length < depth) :
    T.Agrees (Walk.names depth ty) (Parser.names ty ts).bare ts := by
  induction depth generalizing ts with
  | zero => exact absurd hdepth (Nat.not_lt_zero _)
  | succ depth ih =>
      refine .of_suffix fun hts => ?_
      rw [Walk.names, Parser.names_eq]
      refine .step here_agrees ?_
      refine .bind (expect_agrees nofun) fun name rest hname => ?_
      have hlen := Outcome.length_le hname
      cases rest with
      | nil =>
          refine .step (not_accept_nil nofun) ?_
          exact .step (endRound_agrees hts hlen) (.pure _)
      | cons t rest =>
          dsimp only
          by_cases hcomma : t.kind = .comma
          · have hlen' : rest.length < ts.length := Nat.lt_of_succ_lt hlen
            rw [if_pos hcomma]
            refine .step (accept_agrees hcomma) ?_
            refine .step (endRound_agrees hts hlen') ?_
            exact .bind (ih (by omega)) fun more left _ => .pure _
          · rw [if_neg hcomma]
            refine .step (not_accept_agrees hcomma) ?_
            exact .step (endRound_agrees hts hlen) (.pure _)

theorem isSome_tyOf? {kind : Kind} :
    (tyOf? kind).isSome ↔ kind = .keyInt ∨ kind = .keyReal := by
  cases kind <;> simp [tyOf?]

/-- A declaration where a type stands, and the way on from it. The parser has no
procedure of its own for one declaration, so the way on is part of the lemma. -/
theorem Agrees.declaration {depth : Nat} {t : Token} {ty : Ty} {f : Decl → Walk β}
    {g : Decl × List Token → Except Stuck (β × List Token)} (hdepth : ts.length < depth)
    (hty : tyOf? t.kind = some ty)
    (hf : ∀ d rest, rest.length < ts.length → T.Agrees (f d) (g (d, rest)) rest) :
    T.Agrees (Walk.declaration depth >>= f)
      ((Parser.names ty ts).bare >>= fun declared =>
        (Parser.expect .semicolon .declarationEnd declared.2).bare >>= fun semicolon =>
        g (⟨t.loc.offset, ty, declared.1⟩, semicolon.2)) (t :: ts) := by
  rw [Walk.declaration, bind_assoc]
  refine .step next_agrees ?_
  rw [hty]
  -- the walk comes back from the declaration before it goes on; the parser just goes on
  simp only [bind_assoc, pure_bind]
  refine .bind (names_agrees ty hdepth) fun declared rest hnames => ?_
  refine .bind (expect_agrees nofun) fun _ rest' hsemicolon => ?_
  exact hf _ rest' (Nat.lt_trans (Outcome.length_le hsemicolon) (Outcome.length_le hnames))

theorem declarations_agrees {depth : Nat} {ts : List Token} (hdepth : ts.length < depth) :
    T.Agrees (Walk.declarations depth) (Parser.declarations ts).bare ts := by
  induction depth generalizing ts with
  | zero => exact absurd hdepth (Nat.not_lt_zero _)
  | succ depth ih =>
      refine .of_suffix fun hts => ?_
      rw [Walk.declarations]
      refine .step here_agrees ?_
      cases ts with
      | nil =>
          rw [Parser.declarations_nil]
          refine .seesEither ?_ fun _ _ => .pure []
          rw [List.headD_nil, T.isEof]
          rintro (h | h) <;> cases h
      | cons t ts =>
          have hdepth' : ts.length < depth := Nat.lt_of_succ_lt_succ hdepth
          rw [Parser.declarations_cons]
          cases hty : tyOf? t.kind with
          | none =>
              refine .seesEither (fun h => ?_) fun _ _ => .pure []
              exact absurd (isSome_tyOf?.mpr h) (by simp [hty])
          | some ty =>
              have htype := isSome_tyOf?.mp (Option.isSome_of_eq_some hty)
              refine .seesEither (fun _ => ?_) fun h h' => absurd htype (not_or.mpr ⟨h, h'⟩)
              refine Agrees.declaration (g := fun d =>
                (Parser.declarations d.2).bare >>= fun more => .ok (d.1 :: more.1, more.2))
                hdepth' hty ?_
              intro d rest hlen
              refine .step (endRound_agrees hts (Nat.lt_succ_of_lt hlen)) ?_
              exact .bind (ih (Nat.lt_trans hlen hdepth')) fun _ _ _ => .pure _

/-! ## Expressions -/

/-- How many calls a chain is away from a factor before the same tokens. -/
def calls : Tier → Nat
  | .product => 2
  | .sum => 4

theorem calls_bounds (tier : Tier) : 0 < calls tier ∧ calls tier ≤ 4 := by
  cases tier <;> decide

/-- The walks over expressions agree with the parsers, if they may go as deep as the
tokens ask for. With each token the walk comes to a factor anew, by five calls. -/
structure AgreesOnPhrases (T : Tape) (depth : Nat) : Prop where
  factor : ∀ ts : List Token, 5 * ts.length < depth →
    T.Agrees (Walk.factor depth) (Parser.factor ts).bare ts
  operand : ∀ tier, ∀ ts : List Token, 5 * ts.length + calls tier ≤ depth →
    T.Agrees (Walk.operand depth tier) (Parser.operand tier ts).bare ts
  chain : ∀ tier, ∀ ts : List Token, 5 * ts.length + calls tier < depth →
    T.Agrees (Walk.chain depth tier) (Parser.chain tier ts).bare ts
  joined : ∀ tier left, ∀ ts : List Token, 5 * ts.length < depth →
    T.Agrees (Walk.joined depth tier left) (Parser.joined tier left ts).bare ts

section Step

-- One round of the induction: the walks that go one call less deep are settled.
variable {depth : Nat} (h : T.AgreesOnPhrases depth)
include h

theorem factor_agrees (hdepth : 5 * ts.length < depth + 1) :
    T.Agrees (Walk.factor (depth + 1)) (Parser.factor ts).bare ts := by
  refine .of_suffix fun hts => ?_
  rw [Walk.factor]
  refine .step here_agrees ?_
  refine .step look_agrees ?_
  cases ts with
  | nil =>
      rw [Parser.factor_nil, List.headD_nil, T.isEof]
      exact blame_agrees .expression
  | cons t ts =>
      rw [Parser.factor_cons, List.headD_cons]
      rw [List.length_cons] at hdepth
      cases t.kind
      case ident => exact .step next_agrees (.pure _)
      case number => exact .step next_agrees (.pure _)
      case lparen =>
        refine .step next_agrees ?_
        refine .step (descend_agrees hts (Nat.lt_succ_self _)) ?_
        refine .bind (h.chain .sum ts (by rw [calls]; omega)) fun inner rest _ => ?_
        exact .bind (expect_agrees nofun) fun _ _ _ => .pure _
      all_goals exact blame_agrees .expression

theorem operand_agrees {tier : Tier} (hdepth : 5 * ts.length + calls tier ≤ depth + 1) :
    T.Agrees (Walk.operand (depth + 1) tier) (Parser.operand tier ts).bare ts := by
  cases tier with
  | sum =>
      rw [Walk.operand, Parser.operand_sum]
      refine h.chain .product ts ?_
      simp only [calls] at hdepth ⊢
      omega
  | product =>
      rw [Walk.operand, Parser.operand_product]
      refine h.factor ts ?_
      simp only [calls] at hdepth
      omega

theorem chain_agrees {tier : Tier} (hdepth : 5 * ts.length + calls tier < depth + 1) :
    T.Agrees (Walk.chain (depth + 1) tier) (Parser.chain tier ts).bare ts := by
  rw [Walk.chain, Parser.chain_eq]
  refine .bind (h.operand tier ts (Nat.le_of_lt_succ hdepth)) fun x rest hread => ?_
  -- what is joined to the operand stands behind at least one token
  have hlen := Outcome.length_le hread
  exact h.joined tier x rest (by omega)

theorem joined_agrees (tier : Tier) (left : Expr) (hdepth : 5 * ts.length < depth + 1) :
    T.Agrees (Walk.joined (depth + 1) tier left) (Parser.joined tier left ts).bare ts := by
  refine .of_suffix fun hts => ?_
  rw [Walk.joined]
  refine .step here_agrees ?_
  refine .step look_agrees ?_
  cases ts with
  | nil =>
      have hop : tier.op? T.eof.kind = none := by
        rw [T.isEof]
        cases tier <;> rfl
      rw [Parser.joined_nil, List.headD_nil, hop]
      exact .pure left
  | cons t ts =>
      rw [Parser.joined_cons, List.headD_cons]
      rw [List.length_cons] at hdepth
      cases tier.op? t.kind with
      | none => exact .pure left
      | some op =>
          -- the calls of the operand are among the five that the operator pays for
          have hcalls := (calls_bounds tier).2
          refine .step next_agrees ?_
          refine .bind (h.operand tier ts (by omega)) fun right rest hright => ?_
          have hlen := Outcome.length_le hright
          refine .step (endRound_agrees hts (Nat.lt_succ_of_lt hlen)) ?_
          exact h.joined tier _ rest (by omega)

end Step

theorem agreesOnPhrases (T : Tape) (depth : Nat) : T.AgreesOnPhrases depth := by
  induction depth with
  | zero =>
      constructor
      case operand =>
        intro tier ts hdepth
        have hcalls := (calls_bounds tier).1
        omega
      all_goals
        intros
        omega
  | succ depth ih =>
      exact ⟨fun ts => factor_agrees ih, fun tier ts => operand_agrees ih,
        fun tier ts => chain_agrees ih, fun tier left ts => joined_agrees ih tier left⟩

theorem expression_agrees {depth : Nat} (hdepth : 5 * ts.length + 4 < depth) :
    T.Agrees (Walk.chain depth .sum) (Parser.expression ts).bare ts :=
  (T.agreesOnPhrases depth).chain .sum ts hdepth

theorem relation_agrees {depth : Nat} (hdepth : 5 * ts.length + 4 < depth) :
    T.Agrees (Walk.relation depth) (Parser.relation ts).bare ts := by
  rw [Walk.relation, Parser.relation_eq]
  refine .bind (expression_agrees hdepth) fun x rest hread => ?_
  refine .step look_agrees ?_
  have hlen := Outcome.length_le hread
  cases rest with
  | nil =>
      rw [List.headD_nil, T.isEof]
      exact blame_agrees .comparison
  | cons t rest =>
      rw [List.headD_cons]
      rw [List.length_cons] at hlen
      dsimp only
      cases comparison? t.kind with
      | none => exact blame_agrees .comparison
      | some op =>
          refine .step next_agrees ?_
          exact .bind (expression_agrees (by omega)) fun _ _ _ => .pure _

theorem condition_agrees (clause : Clause) {depth : Nat} (hdepth : 5 * ts.length ≤ depth) :
    T.Agrees (Walk.condition depth clause) (Parser.condition clause ts).bare ts := by
  refine .of_suffix fun hts => ?_
  rw [Walk.condition, Parser.condition_eq]
  refine .step here_agrees ?_
  refine .bind (expect_agrees nofun) fun opening rest hopen => ?_
  have hlen := Outcome.length_le hopen
  refine .step (descend_agrees hts hlen) ?_
  dsimp only
  refine .bind (relation_agrees (by omega)) fun cond _ _ => ?_
  exact .bind (expect_agrees nofun) fun _ _ _ => .pure _

/-! ## Statements -/

theorem assignment_agrees {depth : Nat} {t : Token} (hdepth : 5 * ts.length ≤ depth) :
    T.Agrees (Walk.assignment depth) (Parser.assignment t ts).bare (t :: ts) := by
  rw [Walk.assignment, Parser.assignment_eq]
  refine .step next_agrees ?_
  refine .bind (expect_agrees nofun) fun _ rest hsign => ?_
  have hlen := Outcome.length_le hsign
  dsimp only
  refine .bind (expression_agrees (by omega)) fun value _ _ => ?_
  exact .bind (expect_agrees nofun) fun _ _ _ => .pure _

/-- The walks over statements agree with the parsers, at the depth that expressions
in their place would need. -/
structure AgreesOnStatements (T : Tape) (depth : Nat) : Prop where
  statement : ∀ ts : List Token, 5 * ts.length < depth →
    T.Agrees (Walk.statement depth) (Parser.statement ts).bare ts
  statements : ∀ ts : List Token, 5 * ts.length + 1 < depth →
    T.Agrees (Walk.statements depth) (Parser.statements ts).bare ts
  block : ∀ clause, ∀ ts : List Token, 5 * ts.length < depth →
    T.Agrees (Walk.block depth clause) (Parser.block clause ts).bare ts

section Step

variable {depth : Nat} (h : T.AgreesOnStatements depth)
include h

theorem statement_agrees (hdepth : 5 * ts.length < depth + 1) :
    T.Agrees (Walk.statement (depth + 1)) (Parser.statement ts).bare ts := by
  rw [Walk.statement]
  refine .step look_agrees ?_
  cases ts with
  | nil =>
      rw [Parser.statement_nil, List.headD_nil, T.isEof]
      exact blame_agrees .statement
  | cons t ts =>
      rw [Parser.statement_cons, List.headD_cons]
      rw [List.length_cons] at hdepth
      cases t.kind
      case ident => exact assignment_agrees (by omega)
      case keyWhile =>
        refine .step next_agrees ?_
        refine .bind (condition_agrees .loop (by omega)) fun cond rest hcond => ?_
        have hlen := Outcome.length_le hcond
        exact .bind (h.block .loop rest (by omega)) fun _ _ _ => .pure _
      case keyIf =>
        refine .step next_agrees ?_
        refine .bind (condition_agrees .branch (by omega)) fun cond rest hcond => ?_
        have hlen := Outcome.length_le hcond
        dsimp only
        refine .bind (h.block .branch rest (by omega)) fun onTrue rest' htrue => ?_
        have hlen' := Outcome.length_le htrue
        cases rest' with
        | nil => exact .step (not_accept_nil nofun) (.pure _)
        | cons otherwise more =>
            rw [List.length_cons] at hlen'
            dsimp only
            by_cases helse : otherwise.kind = .keyElse
            · rw [if_pos helse]
              refine .step (accept_agrees helse) ?_
              exact .bind (h.block .otherwise more (by omega)) fun _ _ _ => .pure _
            · rw [if_neg helse]
              exact .step (not_accept_agrees helse) (.pure _)
      all_goals exact blame_agrees .statement

theorem statements_agrees (hdepth : 5 * ts.length + 1 < depth + 1) :
    T.Agrees (Walk.statements (depth + 1)) (Parser.statements ts).bare ts := by
  refine .of_suffix fun hts => ?_
  rw [Walk.statements]
  refine .step here_agrees ?_
  cases ts with
  | nil =>
      rw [Parser.statements_nil]
      exact .seesEither (fun _ => .pure []) fun _ h => absurd T.isEof h
  | cons t ts =>
      rw [Parser.statements_cons]
      by_cases hbrace : t.kind = .rbrace
      · rw [if_pos hbrace]
        exact .seesEither (fun _ => .pure []) fun h _ => absurd hbrace h
      · rw [if_neg hbrace]
        refine .seesEither (fun h => absurd h (not_or.mpr ⟨hbrace, ne_eof hts⟩)) fun _ _ => ?_
        -- the statement stands before the same tokens, one call deeper
        refine .bind (h.statement (t :: ts) (by omega)) fun s rest hread => ?_
        have hlen := Outcome.length_le hread
        refine .step (endRound_agrees hts hlen) ?_
        exact .bind (h.statements rest (by omega)) fun _ _ _ => .pure _

theorem block_agrees (clause : Clause) (hdepth : 5 * ts.length < depth + 1) :
    T.Agrees (Walk.block (depth + 1) clause) (Parser.block clause ts).bare ts := by
  refine .of_suffix fun hts => ?_
  rw [Walk.block, Parser.block_eq]
  refine .step here_agrees ?_
  refine .bind (expect_agrees nofun) fun opening rest hopen => ?_
  have hlen := Outcome.length_le hopen
  refine .step (descend_agrees hts hlen) ?_
  refine .bind (h.statements rest (by omega)) fun body _ _ => ?_
  exact .bind (expect_agrees nofun) fun _ _ _ => .pure _

end Step

theorem agreesOnStatements (T : Tape) (depth : Nat) : T.AgreesOnStatements depth := by
  induction depth with
  | zero =>
      constructor
      all_goals
        intros
        omega
  | succ depth ih =>
      exact ⟨fun ts => statement_agrees ih, fun ts => statements_agrees ih,
        fun clause ts => block_agrees ih clause⟩

/-! ## Programs -/

theorem preamble_agrees {depth : Nat} (hdepth : ts.length < depth) :
    T.Agrees (Walk.preamble depth) (Parser.preamble ts) ts := by
  rw [Walk.preamble]
  cases ts with
  | nil =>
      rw [Parser.preamble_nil]
      exact .step (not_accept_nil nofun) (.pure [])
  | cons t ts =>
      rw [Parser.preamble_cons]
      by_cases hvar : t.kind = .keyVar
      · rw [if_pos hvar]
        exact .step (accept_agrees hvar) (declarations_agrees (Nat.lt_of_succ_lt hdepth))
      · rw [if_neg hvar]
        exact .step (not_accept_agrees hvar) (.pure [])

theorem program_agrees {depth : Nat} (hdepth : 5 * ts.length + 1 < depth) :
    T.Agrees (Walk.program depth) (Parser.whole ts) ts := by
  refine .of_suffix fun hts => ?_
  rw [Walk.program, Parser.whole_eq]
  have hhead : T.Agrees (Walk.preamble depth) (Parser.preamble ts) ts := preamble_agrees (by omega)
  refine .bind hhead fun decls rest hdecls => ?_
  have hlen : rest.length ≤ ts.length := by
    rw [hdecls] at hhead
    exact hhead.length_le hts
  refine .bind ((T.agreesOnStatements depth).statements rest (by omega)) fun stmts rest' _ => ?_
  cases rest' with
  | nil => exact .sees (fun _ => .pure _) fun h => absurd T.isEof h
  | cons t rest' =>
      refine .of_suffix fun hrest => ?_
      refine .sees (fun h => absurd h (ne_eof hrest)) fun _ => ?_
      exact .step look_agrees (blame_agrees (.topLevel t.kind))

theorem tree_agrees {depth : Nat} (hdepth : 5 * ts.length + 1 < depth) :
    T.Agrees (Walk.tree depth)
      (Parser.whole ts >>= fun p => .ok (⟨(ts.headD T.eof).loc.offset, p.1.1, p.1.2⟩, p.2)) ts := by
  rw [Walk.tree]
  refine .step look_agrees ?_
  exact .bind (program_agrees hdepth) fun _ _ _ => .pure _

end Tape

end ThreeAddress
