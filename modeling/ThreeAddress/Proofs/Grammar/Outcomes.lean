import ThreeAddress.Program.Parser
import ThreeAddress.Proofs.Attempt

/-!
# What parsers read

A parser's result carries a proof that tokens were used up, which the recursion
needs and nobody else. `Outcome.bare` drops it. The equations below say of each
parser what it reads in terms of what the parsers below it read, so that no
other proof has to open their definitions.
-/

namespace ThreeAddress.Parser

/-- What was read and the tokens left, without the count of tokens used up. -/
def Outcome.bare {α : Type} {n : Nat} {ts : List Token} (o : Outcome α n ts) :
    Except Stuck (α × List Token) :=
  o.map fun p => (p.value, p.rest)

namespace Outcome

variable {α β : Type} {n k : Nat} {ts us rest : List Token} {o : Outcome α n ts}

theorem length_le {x : α} (h : o.bare = .ok (x, rest)) : rest.length + n ≤ ts.length := by
  cases o with
  | error s => cases h
  | ok p => cases h; exact p.consumed

theorem bare_bind {f : Parsed α n ts → Outcome β k us}
    (g : α × List Token → Except Stuck (β × List Token))
    (h : ∀ p, (f p).bare = g (p.value, p.rest)) : Outcome.bare (o >>= f) = o.bare >>= g := by
  cases o with
  | error s => rfl
  | ok p => exact h p

/-- Passing a result on changes nothing but the count. -/
theorem bare_bind_self {f : Parsed α n ts → Outcome α k us}
    (h : ∀ p, (f p).bare = .ok (p.value, p.rest)) : Outcome.bare (o >>= f) = o.bare := by
  cases o with
  | error s => rfl
  | ok p => exact h p

end Outcome

open ThreeAddress.Parser.Outcome (bare_bind bare_bind_self)

/-! ## Single tokens -/

theorem expect_cons (kind : Kind) (reason : Reason) (t : Token) (rest : List Token) :
    (expect kind reason (t :: rest)).bare =
      if t.kind = kind then .ok (t, rest) else .error ⟨reason, t :: rest⟩ := by
  by_cases h : t.kind = kind <;> simp [expect, accept?, h, Outcome.bare, Except.map]

theorem expect_of_eq {kind : Kind} (reason : Reason) {t : Token} (h : t.kind = kind)
    (rest : List Token) : (expect kind reason (t :: rest)).bare = .ok (t, rest) := by
  rw [expect_cons, if_pos h]

/-! ## Declarations -/

theorem names_eq (ty : Ty) (ts : List Token) :
    (names ty ts).bare =
      (expect .ident (.declaredName ty) ts).bare >>= fun name =>
        match name.2 with
        | [] => .ok ([name.1.text], [])
        | t :: rest =>
          if t.kind = .comma then
            (names ty rest).bare >>= fun more => .ok (name.1.text :: more.1, more.2)
          else .ok ([name.1.text], t :: rest) := by
  rw [names]
  refine bare_bind _ fun name => ?_
  obtain ⟨t, rest, hle⟩ := name
  cases rest with
  | nil => rfl
  | cons t' rest =>
      by_cases h : t'.kind = .comma
      · simp only [accept?, h, if_true]
        exact bare_bind _ fun more => rfl
      · simp only [accept?, h, if_false]
        rfl

theorem declarations_nil : (declarations []).bare = .ok ([], []) := by
  rw [declarations]
  rfl

theorem declarations_cons (t : Token) (rest : List Token) :
    (declarations (t :: rest)).bare =
      match tyOf? t.kind with
      | none => .ok ([], t :: rest)
      | some ty =>
        (names ty rest).bare >>= fun declared =>
        (expect .semicolon .declarationEnd declared.2).bare >>= fun semicolon =>
        (declarations semicolon.2).bare >>= fun more =>
        .ok (⟨t.loc.offset, ty, declared.1⟩ :: more.1, more.2) := by
  rw [declarations]
  cases tyOf? t.kind with
  | none => rfl
  | some ty =>
      refine bare_bind _ fun declared => ?_
      refine bare_bind _ fun semicolon => ?_
      exact bare_bind _ fun more => rfl

/-! ## Expressions -/

theorem factor_nil : (factor []).bare = .error ⟨.expression, []⟩ := by
  rw [factor]
  rfl

theorem factor_cons (t : Token) (rest : List Token) :
    (factor (t :: rest)).bare =
      match t.kind with
      | .ident => .ok (.var t.loc.offset t.text, rest)
      | .number => .ok (.lit t.loc.offset t.text, rest)
      | .lparen =>
        (chain .sum rest).bare >>= fun inner =>
        (expect .rparen .groupEnd inner.2).bare >>= fun close => .ok (inner.1, close.2)
      | _ => .error ⟨.expression, t :: rest⟩ := by
  rw [factor]
  cases t.kind
  case lparen =>
    refine bare_bind _ fun inner => ?_
    exact bare_bind _ fun close => rfl
  all_goals rfl

theorem operand_sum (ts : List Token) : operand .sum ts = chain .product ts := by
  rw [operand]

theorem operand_product (ts : List Token) : operand .product ts = factor ts := by
  rw [operand]

theorem chain_eq (tier : Tier) (ts : List Token) :
    (chain tier ts).bare =
      (operand tier ts).bare >>= fun first => (joined tier first.1 first.2).bare := by
  rw [chain]
  refine bare_bind _ fun first => ?_
  exact bare_bind_self fun whole => rfl

theorem joined_nil (tier : Tier) (left : Expr) : (joined tier left []).bare = .ok (left, []) := by
  rw [joined]
  rfl

theorem joined_cons (tier : Tier) (left : Expr) (t : Token) (rest : List Token) :
    (joined tier left (t :: rest)).bare =
      match tier.op? t.kind with
      | none => .ok (left, t :: rest)
      | some op =>
        (operand tier rest).bare >>= fun right =>
        (joined tier (.bin left.pos op left right.1) right.2).bare := by
  rw [joined]
  cases tier.op? t.kind with
  | none => rfl
  | some op =>
      refine bare_bind _ fun right => ?_
      exact bare_bind_self fun whole => rfl

theorem relation_eq (ts : List Token) :
    (relation ts).bare =
      (expression ts).bare >>= fun left =>
        match left.2 with
        | [] => .error ⟨.comparison, []⟩
        | t :: rest =>
          match comparison? t.kind with
          | none => .error ⟨.comparison, t :: rest⟩
          | some op =>
            (expression rest).bare >>= fun right =>
            .ok (.bin left.1.pos op left.1 right.1, right.2) := by
  refine bare_bind _ fun left => ?_
  obtain ⟨x, rest, hle⟩ := left
  cases rest with
  | nil => rfl
  | cons t rest =>
      dsimp only
      cases comparison? t.kind with
      | none => rfl
      | some op => exact bare_bind _ fun right => rfl

theorem condition_eq (clause : Clause) (ts : List Token) :
    (condition clause ts).bare =
      (expect .lparen (.conditionStart clause) ts).bare >>= fun opening =>
      (relation opening.2).bare >>= fun cond =>
      (expect .rparen (.conditionEnd clause) cond.2).bare >>= fun close =>
      .ok (cond.1, close.2) := by
  refine bare_bind _ fun opening => ?_
  refine bare_bind _ fun cond => ?_
  exact bare_bind _ fun close => rfl

/-! ## Statements -/

theorem assignment_eq (name : Token) (ts : List Token) :
    (assignment name ts).bare =
      (expect .assign (.assignSign name.text) ts).bare >>= fun sign =>
      (expression sign.2).bare >>= fun value =>
      (expect .semicolon .assignmentEnd value.2).bare >>= fun semicolon =>
      .ok (.assign name.loc.offset name.text value.1, semicolon.2) := by
  refine bare_bind _ fun sign => ?_
  refine bare_bind _ fun value => ?_
  exact bare_bind _ fun semicolon => rfl

theorem statement_nil : (statement []).bare = .error ⟨.statement, []⟩ := by
  rw [statement]
  rfl

theorem statement_cons (t : Token) (rest : List Token) :
    (statement (t :: rest)).bare =
      match t.kind with
      | .ident => (assignment t rest).bare
      | .keyWhile =>
        (condition .loop rest).bare >>= fun cond =>
        (block .loop cond.2).bare >>= fun body =>
        .ok (.loop t.loc.offset cond.1 body.1, body.2)
      | .keyIf =>
        (condition .branch rest).bare >>= fun cond =>
        (block .branch cond.2).bare >>= fun onTrue =>
          match onTrue.2 with
          | [] => .ok (.branch t.loc.offset cond.1 onTrue.1 [], [])
          | otherwise :: more =>
            if otherwise.kind = .keyElse then
              (block .otherwise more).bare >>= fun onFalse =>
              .ok (.branch t.loc.offset cond.1 onTrue.1 onFalse.1, onFalse.2)
            else .ok (.branch t.loc.offset cond.1 onTrue.1 [], otherwise :: more)
      | _ => .error ⟨.statement, t :: rest⟩ := by
  rw [statement]
  cases t.kind
  case ident => exact bare_bind_self fun s => rfl
  case keyWhile =>
    refine bare_bind _ fun cond => ?_
    exact bare_bind _ fun body => rfl
  case keyIf =>
    refine bare_bind _ fun cond => ?_
    refine bare_bind _ fun onTrue => ?_
    obtain ⟨yes, more, hle⟩ := onTrue
    cases more with
    | nil => rfl
    | cons otherwise more =>
        by_cases h : otherwise.kind = .keyElse
        · simp only [accept?, h, if_true]
          exact bare_bind _ fun onFalse => rfl
        · simp only [accept?, h, if_false]
          rfl
  all_goals rfl

theorem statements_nil : (statements []).bare = .ok ([], []) := by
  rw [statements]
  rfl

theorem statements_cons (t : Token) (rest : List Token) :
    (statements (t :: rest)).bare =
      if t.kind = .rbrace then .ok ([], t :: rest)
      else
        (statement (t :: rest)).bare >>= fun first =>
        (statements first.2).bare >>= fun more => .ok (first.1 :: more.1, more.2) := by
  rw [statements]
  split
  · rfl
  · refine bare_bind _ fun first => ?_
    exact bare_bind _ fun more => rfl

theorem block_eq (clause : Clause) (ts : List Token) :
    (block clause ts).bare =
      (expect .lbrace (.blockStart clause) ts).bare >>= fun opening =>
      (statements opening.2).bare >>= fun body =>
      (expect .rbrace (.blockEnd clause) body.2).bare >>= fun close =>
      .ok (body.1, close.2) := by
  rw [block]
  refine bare_bind _ fun opening => ?_
  refine bare_bind _ fun body => ?_
  exact bare_bind _ fun close => rfl

/-! ## Programs -/

theorem preamble_nil : preamble [] = .ok ([], []) := rfl

theorem preamble_cons (t : Token) (rest : List Token) :
    preamble (t :: rest) =
      if t.kind = .keyVar then (declarations rest).bare else .ok ([], t :: rest) := by
  by_cases h : t.kind = .keyVar
  · simp only [preamble, accept?, h, if_true]
    rfl
  · simp only [preamble, accept?, h, if_false]

theorem program_eq (ts : List Token) :
    program ts =
      preamble ts >>= fun head =>
      (statements head.2).bare >>= fun body =>
        match body.2 with
        | [] => .ok (head.1, body.1)
        | t :: more => .error ⟨.topLevel t.kind, t :: more⟩ := by
  unfold program
  cases preamble ts with
  | error s => rfl
  | ok head =>
      obtain ⟨ds, rest⟩ := head
      show (statements rest >>= _) = ((statements rest).bare >>= _)
      cases statements rest with
      | error s => rfl
      | ok body =>
          obtain ⟨ss, left, hle⟩ := body
          cases left <;> rfl

end ThreeAddress.Parser
