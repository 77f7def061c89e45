import ThreeAddress.Proofs.Grammar.Outcomes

/-!
# Following a grammar

What it means for a parser to go by a grammar (`Follows`). It takes tokens off
the front of those it stands before. Either these are a phrase, and it returns
the tree of that phrase; or it is stuck, and then they are the start of a phrase.
It goes by nothing but the tokens it takes and the one behind them: before other
tokens that begin the same way it does the same.

The lemmas below follow the ways in which parsers are put together. Wherever one
of two parsers in a row may get stuck, some way to finish the phrase has to be
shown.
-/

namespace ThreeAddress.Parser

/-- A token of the given kind, to finish a phrase with. -/
def sample (kind : Kind) : Token := ⟨kind, "", .none⟩

variable {α β : Type}

/-- Some phrase starts with the tokens. -/
def Begins (R : List Token → α → Prop) (w : List Token) : Prop :=
  ∃ more x, R (w ++ more) x

/-- How a parser for the phrases `R` fares before `ts`. It takes a phrase, or it
takes the start of one and is stuck. Either way the tokens behind those it takes
do not matter, but for the first of them. -/
inductive Follows (R : List Token → α → Prop) (p : List Token → Except Stuck (α × List Token))
    (ts : List Token) : Prop
  | phrase {w rest : List Token} {x : α} : ts = w ++ rest → R w x →
      (∀ us, us.head? = rest.head? → p (w ++ us) = .ok (x, us)) → Follows R p ts
  | stuck {w rest : List Token} (reason : Reason) : ts = w ++ rest → Begins R w →
      (∀ us, us.head? = rest.head? → p (w ++ us) = .error ⟨reason, us⟩) → Follows R p ts

variable {R : List Token → α → Prop} {S : List Token → β → Prop}
  {p q : List Token → Except Stuck (α × List Token)} {ts : List Token}

theorem head?_append_congr {us rest : List Token} (h : us.head? = rest.head?) (w : List Token) :
    (w ++ us).head? = (w ++ rest).head? := by
  rw [List.head?_append, List.head?_append, h]

theorem forall_head?_nil {P : List Token → Prop} (h : P []) :
    ∀ us : List Token, us.head? = ([] : List Token).head? → P us := by
  intro us hus
  rw [List.head?_nil, List.head?_eq_none_iff] at hus
  rw [hus]
  exact h

theorem forall_head?_cons {P : List Token → Prop} {t : Token} (h : ∀ us, P (t :: us)) :
    ∀ us : List Token, us.head? = (t :: ts).head? → P us := by
  intro us hus
  obtain ⟨us, rfl⟩ := List.head?_eq_some_iff.mp hus
  exact h us

namespace Follows

/-- A parser that takes nothing and is content. -/
theorem here {x : α} (hp : ∀ us, us.head? = ts.head? → p us = .ok (x, us)) (hx : R [] x) :
    Follows R p ts :=
  .phrase (w := []) rfl hx hp

/-- A parser that takes nothing and is stuck. -/
theorem fails (reason : Reason) (hp : ∀ us, us.head? = ts.head? → p us = .error ⟨reason, us⟩)
    (hx : Begins R []) : Follows R p ts :=
  .stuck (w := []) reason rfl hx hp

theorem of_eq (h : ∀ us, us.head? = ts.head? → p us = q us) (hq : Follows R q ts) :
    Follows R p ts := by
  cases hq with
  | @phrase w rest x hts hx hrun =>
      refine .phrase hts hx fun us hus => ?_
      rw [h _ (hts ▸ head?_append_congr hus w), hrun us hus]
  | @stuck w rest reason hts hw hrun =>
      refine .stuck reason hts hw fun us hus => ?_
      rw [h _ (hts ▸ head?_append_congr hus w), hrun us hus]

theorem imp {Q : List Token → α → Prop} (h : ∀ w x, R w x → Q w x) (hp : Follows R p ts) :
    Follows Q p ts := by
  cases hp with
  | phrase hts hx hrun => exact .phrase hts (h _ _ hx) hrun
  | stuck reason hts hw hrun =>
      obtain ⟨more, x, hx⟩ := hw
      exact .stuck reason hts ⟨more, x, h _ _ hx⟩ hrun

/-- A parser that takes a token and goes on as another one. -/
theorem cons {t : Token} (h : ∀ us, p (t :: us) = q us)
    (hq : Follows (fun w x => R (t :: w) x) q ts) : Follows R p (t :: ts) := by
  cases hq with
  | phrase hts hx hrun =>
      exact .phrase (congrArg _ hts) hx fun us hus => (h _).trans (hrun us hus)
  | @stuck w _ reason hts hw hrun =>
      exact .stuck (w := t :: w) reason (congrArg _ hts) hw fun us hus => (h _).trans (hrun us hus)

/-- Of two parsers in a row, the second goes on where the first has stopped. If
the first is stuck already, there has to be a way to go on behind its phrases. -/
theorem bind {f : α × List Token → Except Stuck (β × List Token)} (hp : Follows R p ts)
    (hclose : ∀ w x, R w x → Begins S w)
    (hf : ∀ w x rest, p ts = .ok (x, rest) → R w x →
      Follows (fun v y => S (w ++ v) y) (fun us => f (x, us)) rest) :
    Follows S (fun us => p us >>= f) ts := by
  cases hp with
  | @stuck w rest reason hts hw hrun =>
      obtain ⟨more, x, hx⟩ := hw
      obtain ⟨more', y, hy⟩ := hclose _ _ hx
      refine .stuck reason hts ⟨more ++ more', y, List.append_assoc .. ▸ hy⟩ fun us hus => ?_
      rw [hrun us hus, error_bind]
  | @phrase w rest x hts hx hrun =>
      have hhere : p ts = .ok (x, rest) := hts ▸ hrun rest rfl
      cases hf w x rest hhere hx with
      | @phrase v left y hrest hy hrun' =>
          refine @Follows.phrase _ _ _ _ (w ++ v) left _ (by rw [hts, hrest, List.append_assoc]) hy
            fun us hus => ?_
          rw [List.append_assoc, hrun _ (hrest ▸ head?_append_congr hus v)]
          exact hrun' us hus
      | @stuck v left reason hrest hv hrun' =>
          obtain ⟨more, y, hy⟩ := hv
          refine @Follows.stuck _ _ _ _ (w ++ v) left reason (by rw [hts, hrest, List.append_assoc])
            ⟨more, y, List.append_assoc .. ▸ hy⟩ fun us hus => ?_
          rw [List.append_assoc, hrun _ (hrest ▸ head?_append_congr hus v)]
          exact hrun' us hus

/-- A token that has to come next, and a parser behind it. -/
theorem expect {kind : Kind} {reason : Reason}
    {f : Token × List Token → Except Stuck (β × List Token)}
    (hclose : Begins S [])
    (hf : ∀ t rest, rest.length < ts.length → t.kind = kind →
      Follows (fun v y => S (t :: v) y) (fun us => f (t, us)) rest) :
    Follows S (fun us => (expect kind reason us).bare >>= f) ts := by
  cases ts with
  | nil => exact .fails reason (forall_head?_nil rfl) hclose
  | cons t ts =>
      by_cases h : t.kind = kind
      · refine .cons (fun us => ?_) (hf t ts (Nat.lt_succ_self _) h)
        rw [expect_of_eq _ h, ok_bind]
      · refine .fails reason (forall_head?_cons fun us => ?_) hclose
        rw [expect_cons, if_neg h, error_bind]

/-- A token that has to come last. -/
theorem closing {kind : Kind} {reason : Reason} {y : β} (h : ∀ t, t.kind = kind → S [t] y) :
    Follows S (fun us => (Parser.expect kind reason us).bare >>= fun t => .ok (y, t.2)) ts := by
  refine .expect ⟨[sample kind], y, h _ rfl⟩ fun t rest _ ht => ?_
  exact .here (fun us _ => rfl) (h t ht)

/-- A parser that makes something of what another one reads. -/
theorem map {g : α → β} (hp : Follows R p ts) (h : ∀ w x, R w x → S w (g x)) :
    Follows S (fun us => p us >>= fun y => .ok (g y.1, y.2)) ts := by
  refine .bind hp (fun w x hx => ⟨[], g x, ?_⟩) fun w x rest _ hx => ?_
  · rw [List.append_nil]
    exact h w x hx
  · refine .here (x := g x) (fun us _ => rfl) ?_
    rw [List.append_nil]
    exact h w x hx

/-- What was read is a phrase. -/
theorem of_ok (h : Follows R p ts) {x : α} {rest : List Token} (hp : p ts = .ok (x, rest)) :
    ∃ w, ts = w ++ rest ∧ R w x := by
  cases h with
  | @phrase w left y hts hy hrun =>
      have hread := hrun left rfl
      rw [← hts, hp] at hread
      cases hread
      exact ⟨w, hts, hy⟩
  | @stuck w left reason hts _ hrun =>
      have hread := hrun left rfl
      rw [← hts, hp] at hread
      cases hread

/-- Where the parser is stuck a phrase has begun, and the parser is stuck there
whatever comes behind the token it stands before. -/
theorem of_error (h : Follows R p ts) {stuck : Stuck} (hp : p ts = .error stuck) :
    ∃ w, ts = w ++ stuck.rest ∧ Begins R w ∧
      ∀ us, us.head? = stuck.rest.head? → p (w ++ us) = .error ⟨stuck.reason, us⟩ := by
  cases h with
  | @phrase w left y hts _ hrun =>
      have hread := hrun left rfl
      rw [← hts, hp] at hread
      cases hread
  | @stuck w left reason hts hw hrun =>
      have hread := hrun left rfl
      rw [← hts, hp] at hread
      cases hread
      exact ⟨w, hts, hw, hrun⟩

end Follows

end ThreeAddress.Parser
