import ThreeAddress.Proofs.Lowering.Freshness
import ThreeAddress.Proofs.Semantics.Meaning

/-!
# Lowering preserves meaning

The code of a program does on the machine what the program does: it finishes,
fails or runs forever as the program does, and the stores at the end differ on
the names of temporaries only.

The argument is a simulation. A program in the middle of a run has a list of
statements to do, code in the middle of a run has a tail of the code to do;
`Follows` says that the tail does those statements. Between the pieces of code
that belong to statements there are labels, jumps and declarations, which the
machine passes without touching the store (`Passes`).
-/

namespace ThreeAddress

open Execution Lowering

universe u v

variable {V : Type u} {E : Type v} {m : Meaning V E} {s : Scope} {code frag rest : Code}

/-! ## Expressions -/

/-- What the operand of an expression is. -/
theorem Lowering.EmitsExpr.operand {e : Expr} {c c' : Counters} {x : Operand}
    (h : EmitsExpr s e c frag x c') :
    (∃ text, x = .lit text) ∨ (∃ n ∈ e.names, x = .var n) ∨ ∃ t ∈ frag.temps, x = .temp t := by
  cases h with
  | lit pos text => exact .inl ⟨text, rfl⟩
  | var pos name => exact .inr (.inl ⟨name, by simp [Expr.names], rfl⟩)
  | bin => exact .inr (.inr ⟨_, by simp [Instr.assigned?], rfl⟩)

/-- Temporaries of an emitted piece of code take no name of the program. -/
theorem Lowering.Fragment.not_mem_tempNames {c c' : Counters} (h : Fragment s c c' frag)
    {n : String} (hn : n ∈ s.taken) : n ∉ frag.tempNames := by
  intro hmem
  obtain ⟨t, ht, rfl⟩ := List.mem_map.mp hmem
  exact (h.temps t ht).free hn

/-- The operand of an expression keeps its value while the code after it
assigns its own temporaries. -/
theorem Lowering.EmitsExpr.value_eq {e : Expr} {c c₁ c₂ : Counters} {x : Operand} {more : Code}
    (h : EmitsExpr s e c frag x c₁) (hnames : ∀ n ∈ e.names, n ∈ s.taken)
    (h' : Fragment s c₁ c₂ more) {τ τ' : Store V}
    (frame : ∀ n, n ∉ more.tempNames → τ' n = τ n) : x.value m τ' = x.value m τ := by
  rcases h.operand with ⟨text, rfl⟩ | ⟨n, hn, rfl⟩ | ⟨t, ht, rfl⟩
  · rfl
  · simp only [Operand.value]
    rw [frame n (h'.not_mem_tempNames (hnames n hn))]
  · simp only [Operand.value]
    rw [frame t.name]
    intro hmem
    obtain ⟨t', ht', same⟩ := List.mem_map.mp hmem
    exact ((h.fragment.temps t ht).ne (h'.temps t' ht')).2 same.symm

/-- Run before `rest`, the code leaves the value in the operand or fails with
the fault, and touches no name but its own temporaries. -/
def Delivers (m : Meaning V E) (code frag rest : Code) (x : Operand) (τ : Store V) :
    Except (Fault E) V → Prop
  | .ok v => ∃ τ', Leads (Machine.step m code) ⟨frag ++ rest, τ⟩ ⟨rest, τ'⟩ ∧
      (∀ n, n ∉ frag.tempNames → τ' n = τ n) ∧ x.value m τ' = .ok v
  | .error f => ∃ τ', EndsWith (Machine.step m code) ⟨frag ++ rest, τ⟩ (.failed f τ') ∧
      ∀ n, n ∉ frag.tempNames → τ' n = τ n

/-- The code of an expression computes the expression. -/
theorem Lowering.EmitsExpr.delivers {e : Expr} {c c' : Counters} {x : Operand}
    (h : EmitsExpr s e c frag x c') (hnames : ∀ n ∈ e.names, n ∈ s.taken) (rest : Code)
    {σ τ : Store V} (agree : ∀ n ∈ s.taken, σ n = τ n) :
    Delivers m code frag rest x τ (e.eval m σ) := by
  induction h generalizing rest τ with
  | lit pos text c => exact ⟨τ, .refl _, fun _ _ => rfl, rfl⟩
  | var pos name c =>
      refine ⟨τ, .refl _, fun _ _ => rfl, ?_⟩
      simp only [Operand.value, agree name (hnames name (by simp [Expr.names]))]
  | @bin pos op l r c c₁ c₂ codeL codeR x y hop hl hr ihL ihR =>
      have namesL : ∀ n ∈ l.names, n ∈ s.taken :=
        fun n hn => hnames n (List.mem_append_left _ hn)
      have namesR : ∀ n ∈ r.names, n ∈ s.taken :=
        fun n hn => hnames n (List.mem_append_right _ hn)
      let last : Instr := .binop (s.temp c₂).1 op x y
      have shape : codeL ++ codeR ++ [last] ++ rest = codeL ++ (codeR ++ last :: rest) := by simp
      have left := ihL namesL (codeR ++ last :: rest) agree
      unfold Expr.eval
      cases hvL : l.eval m σ with
      | error f =>
          rw [hvL] at left
          obtain ⟨τ₁, ends, frame⟩ := left
          refine ⟨τ₁, by rw [shape]; exact ends, fun n hn => frame n fun hmem => hn ?_⟩
          simp [hmem]
      | ok a =>
          rw [hvL] at left
          obtain ⟨τ₁, leads, frame, hx⟩ := left
          have agree₁ : ∀ n ∈ s.taken, σ n = τ₁ n := fun n hn =>
            (agree n hn).trans (frame n (hl.fragment.not_mem_tempNames hn)).symm
          have right := ihR namesR (last :: rest) agree₁
          cases hvR : r.eval m σ with
          | error f =>
              rw [hvR] at right
              obtain ⟨τ₂, ends, frame₂⟩ := right
              refine ⟨τ₂, by rw [shape]; exact leads.trans_endsWith ends, fun n hn => ?_⟩
              simp only [Code.tempNames_append, List.mem_append, not_or] at hn
              rw [frame₂ n hn.1.2, frame n hn.1.1]
          | ok b =>
              rw [hvR] at right
              obtain ⟨τ₂, leads₂, frame₂, hy⟩ := right
              have hx₂ : x.value m τ₂ = .ok a := by
                rw [hl.value_eq namesL hr.fragment frame₂, hx]
              have there := leads.trans leads₂
              rw [← shape] at there
              show Delivers m code _ rest _ τ ((m.apply op a b).mapError .operator)
              cases happ : m.apply op a b with
              | error err =>
                  refine ⟨τ₂, there.trans_endsWith (.single ?_), fun n hn => ?_⟩
                  · rw [Machine.step_binop _ _ hx₂ hy, happ]
                  · simp only [Code.tempNames_append, List.mem_append, not_or] at hn
                    rw [frame₂ n hn.1.2, frame n hn.1.1]
              | ok v =>
                  refine ⟨Function.update τ₂ (s.temp c₂).1.name v, there.trans (.single ?_),
                    fun n hn => ?_, by simp [Operand.value]⟩
                  · rw [Machine.step_binop _ _ hx₂ hy, happ]
                  · simp only [Code.tempNames_append, List.mem_append, not_or] at hn
                    have fresh : n ≠ (s.temp c₂).1.name := by
                      simpa [Code.tempNames, Instr.assigned?] using hn.2
                    rw [Function.update_of_ne fresh, frame₂ n hn.1.2, frame n hn.1.1]

/-! ## Jumps -/

/-- A jump finds the label it is looking for, wherever that stands, because no
other label has its name. -/
theorem Machine.seek_of_suffix {l : Label} (hnodup : code.markNames.Nodup)
    (h : (.mark l :: rest) <:+ code) : Machine.seek l.name code = some (.mark l :: rest) := by
  induction code with
  | nil => exact absurd h (by simp)
  | cons x code ih =>
      rcases List.suffix_cons_iff.mp h with same | htail
      · cases same
        simp [Machine.seek]
      · have later : l.name ∈ Code.markNames code := by
          obtain ⟨pre, rfl⟩ := htail
          simp [Code.markNames, Instr.placed?]
        have tail : (Code.markNames code).Nodup := by
          rw [Code.markNames, Code.marks_cons, List.map_append] at hnodup
          exact (List.nodup_append.mp hnodup).2.1
        cases x with
        | mark l' =>
            have other : l'.name ≠ l.name := by
              rintro same
              simp only [Code.markNames, Code.marks_cons, Instr.placed?, Option.toList_some,
                List.singleton_append, List.map_cons, List.nodup_cons] at hnodup
              exact hnodup.1 (same ▸ later)
            rw [Machine.seek, if_neg other]
            exact ih tail htail
        | _ => exact ih tail htail

/-- Instructions the machine passes without touching the store. -/
inductive Passes (code : Code) : Code → Code → Prop
  | decl (ty : Ty) (name : String) (rest : Code) : Passes code (.decl ty name :: rest) rest
  | mark (l : Label) (rest : Code) : Passes code (.mark l :: rest) rest
  | goto (l : Label) (rest : Code) {target : Code} :
      Machine.seek l.name code = some target → Passes code (.goto l :: rest) target

theorem Passes.step {todo target : Code} (h : Passes code todo target) (m : Meaning V E)
    (τ : Store V) : Machine.step m code ⟨todo, τ⟩ = .ok ⟨target, τ⟩ := by
  cases h with
  | decl => rfl
  | mark => rfl
  | goto l rest hseek => simp [Machine.step, Machine.jump, hseek]

/-! ## Statements -/

/-- Running the tail `todo` of the code does the statements. -/
inductive Follows (s : Scope) (code : Code) : List Stmt → Code → Prop
  | finish : Follows s code [] []
  | pass {ss : List Stmt} {todo target : Code} : Passes code todo target →
      Follows s code ss target → Follows s code ss todo
  | block {ss more : List Stmt} {c c' : Counters} {frag rest : Code} : Emits s ss c frag c' →
      (∀ n ∈ Stmt.namesOf ss, n ∈ s.taken) → (frag ++ rest) <:+ code →
      Follows s code more rest → Follows s code (ss ++ more) (frag ++ rest)

/-- Code that has no statement left to do runs to its end. -/
theorem Follows.leads_nil {todo : Code} (h : Follows s code [] todo) (m : Meaning V E)
    (τ : Store V) : Leads (Machine.step m code) ⟨todo, τ⟩ ⟨[], τ⟩ := by
  generalize hss : ([] : List Stmt) = ss at h
  induction h with
  | finish => exact .refl _
  | pass hp _ ih => exact (Leads.single (hp.step m τ)).trans (ih hss)
  | block hemit _ _ _ ih =>
      obtain ⟨rfl, rfl⟩ := List.append_eq_nil_iff.mp hss.symm
      cases hemit
      exact ih rfl

/-- Code that has a statement to do comes, the store untouched, to the piece
that was written for it and for the statements after it. -/
theorem Follows.head {st : Stmt} {ss : List Stmt} {todo : Code}
    (h : Follows s code (st :: ss) todo) :
    ∃ (block more : List Stmt) (c c' : Counters) (frag rest : Code), ss = block ++ more ∧
      Emits s (st :: block) c frag c' ∧ (∀ n ∈ Stmt.namesOf (st :: block), n ∈ s.taken) ∧
      (frag ++ rest) <:+ code ∧ Follows s code more rest ∧
      ∀ (m : Meaning V E) (τ : Store V),
        Leads (Machine.step m code) ⟨todo, τ⟩ ⟨frag ++ rest, τ⟩ := by
  generalize hss : st :: ss = all at h
  induction h with
  | finish => cases hss
  | pass hp _ ih =>
      obtain ⟨block, more, c, c', frag, rest, hsplit, hemit, hnames, hsuf, hfol, leads⟩ := ih hss
      exact ⟨block, more, c, c', frag, rest, hsplit, hemit, hnames, hsuf, hfol,
        fun m τ => (Leads.single (hp.step m τ)).trans (leads m τ)⟩
  | @block front more c c' frag rest hemit hnames hsuf hfol ih =>
      cases front with
      | nil =>
          cases hemit
          exact ih hss
      | cons st' block =>
          cases hss
          exact ⟨block, more, c, c', frag, rest, rfl, hemit, hnames, hsuf, hfol, fun _ _ => .refl _⟩

/-! ## The simulation -/

/-- The stores give all names but the listed ones the same values. -/
def AgreeOutside (names : List String) (σ τ : Store V) : Prop := ∀ n, n ∉ names → σ n = τ n

theorem AgreeOutside.update {names : List String} {σ τ : Store V} (h : AgreeOutside names σ τ)
    (name : String) (v : V) :
    AgreeOutside names (Function.update σ name v) (Function.update τ name v) := by
  intro n hn
  by_cases same : n = name
  · rw [same, Function.update_self, Function.update_self]
  · rw [Function.update_of_ne same, Function.update_of_ne same, h n hn]

/-- The same outcome, as far as names other than the listed ones go. -/
inductive Outcome.Agrees (names : List String) : Outcome V E → Outcome V E → Prop
  | finished {σ τ : Store V} : AgreeOutside names σ τ → Agrees names (.finished σ) (.finished τ)
  | failed (f : Fault E) {σ τ : Store V} : AgreeOutside names σ τ →
      Agrees names (.failed f σ) (.failed f τ)

/-- Program and code stand at the same point of their runs. -/
structure Matches (s : Scope) (code : Code) (a : Source.State V) (b : Machine.State V) :
    Prop where
  follows : Follows s code a.todo b.todo
  agree : AgreeOutside code.tempNames a.store b.store

/-- The machine, from `b` on, matches what a step of the program led to. -/
def Matched (m : Meaning V E) (s : Scope) (code : Code) (b : Machine.State V) :
    Except (Outcome V E) (Source.State V) → Prop
  | .ok a => ∃ b', LeadsOn (Machine.step m code) b b' ∧ Matches s code a b'
  | .error o => ∃ q, EndsWith (Machine.step m code) b q ∧ o.Agrees code.tempNames q

theorem Matched.of_leads {b b' : Machine.State V} {r : Except (Outcome V E) (Source.State V)}
    (h : Leads (Machine.step m code) b b') (h' : Matched m s code b' r) :
    Matched m s code b r := by
  cases r with
  | ok a =>
      obtain ⟨b'', leads, hm⟩ := h'
      exact ⟨b'', h.trans_leadsOn leads, hm⟩
  | error o =>
      obtain ⟨q, ends, hq⟩ := h'
      exact ⟨q, h.trans_endsWith ends, hq⟩

section Matching

variable (hmarks : code.markNames.Nodup) (hfree : ∀ n ∈ s.taken, n ∉ code.tempNames)
variable {c c' : Counters} {x : Operand} {σ τ : Store V}

include hfree in
/-- A statement that begins with an expression is matched if it is matched from
where the value of the expression is at hand. -/
theorem matched_of_expr {e : Expr} (he : EmitsExpr s e c frag x c')
    (hnames : ∀ n ∈ e.names, n ∈ s.taken) (hsuf : (frag ++ rest) <:+ code)
    (agree : AgreeOutside code.tempNames σ τ) (todo : List Stmt)
    (next : V → Except (Outcome V E) (Source.State V))
    (hnext : ∀ v τ', AgreeOutside code.tempNames σ τ' → x.value m τ' = .ok v →
      Matched m s code ⟨rest, τ'⟩ (next v)) :
    Matched m s code ⟨frag ++ rest, τ⟩ ((Source.State.value m ⟨todo, σ⟩ e).bind next) := by
  have own : ∀ n, n ∉ code.tempNames → n ∉ frag.tempNames := by
    intro n hn hmem
    obtain ⟨pre, rfl⟩ := hsuf
    simp [hmem] at hn
  have delivers : Delivers m code frag rest x τ (e.eval m σ) :=
    he.delivers hnames rest fun n hn => agree n (hfree n hn)
  cases hv : e.eval m σ with
  | error f =>
      rw [hv] at delivers
      obtain ⟨τ', ends, frame⟩ := delivers
      simp only [Source.State.value, hv, mapError_error, Except.bind]
      refine ⟨_, ends, .failed f fun n hn => ?_⟩
      rw [agree n hn, frame n (own n hn)]
  | ok v =>
      rw [hv] at delivers
      obtain ⟨τ', leads, frame, hx⟩ := delivers
      simp only [Source.State.value, hv, mapError_ok, Except.bind]
      refine .of_leads leads (hnext v τ' (fun n hn => ?_) hx)
      rw [agree n hn, frame n (own n hn)]

include hmarks in
/-- A conditional jump goes to its label if the operand is zero, and else on to
the next instruction. -/
theorem leadsOn_ifFalse {l : Label} {after target : Code} {v : V}
    (hsuf : (.mark l :: target) <:+ code) (hx : x.value m τ = .ok v) :
    LeadsOn (Machine.step m code) ⟨.ifFalse x l :: after, τ⟩
      ⟨if m.isZero v then .mark l :: target else after, τ⟩ := by
  refine .single ?_
  rw [Machine.step_ifFalse l hx, Machine.jump, Machine.seek_of_suffix hmarks hsuf]
  split <;> rfl

variable {block more : List Stmt}

include hmarks hfree in
/-- One step of a program is matched by the code that was written for it. -/
theorem Emits.matched {st : Stmt} (hemit : Emits s (st :: block) c frag c')
    (hnames : ∀ n ∈ Stmt.namesOf (st :: block), n ∈ s.taken) (hsuf : (frag ++ rest) <:+ code)
    (hmore : Follows s code more rest) (agree : AgreeOutside code.tempNames σ τ) :
    Matched m s code ⟨frag ++ rest, τ⟩ (Source.step m ⟨st :: (block ++ more), σ⟩) := by
  have whole : Follows s code (st :: block ++ more) (frag ++ rest) :=
    .block hemit hnames hsuf hmore
  have tail : ∀ {a b : Code}, (a ++ b) <:+ code → b <:+ code :=
    fun h => (List.suffix_append _ _).trans h
  have next : ∀ {i : Instr} {b : Code}, (i :: b) <:+ code → b <:+ code :=
    fun h => (List.suffix_cons _ _).trans h
  cases hemit with
  | @assign pos name value _ _ c₁ _ test after x he hblock =>
      simp only [Stmt.namesOf, Stmt.names, List.mem_append, List.mem_cons] at hnames
      simp only [List.append_assoc, List.cons_append] at hsuf ⊢
      refine matched_of_expr hfree he (fun n hn => hnames n (.inl (.inr hn))) hsuf agree _ _ ?_
      intro v τ' agree' hx
      refine ⟨⟨after ++ rest, Function.update τ' name v⟩, .single ?_, ?_, ?_⟩
      · exact Machine.step_copy name hx
      · exact .block hblock (fun n hn => hnames n (.inr hn)) (next (tail hsuf)) hmore
      · exact agree'.update name v
  | @loop pos cond body _ _ c₁ c₂ _ test inner after x he hbody hblock =>
      simp only [Stmt.namesOf, Stmt.names, List.mem_append] at hnames
      simp only [List.append_assoc, List.cons_append] at hsuf whole ⊢
      refine .of_leads (.single ((Passes.mark _ _).step m τ)) ?_
      refine matched_of_expr hfree he (fun n hn => hnames n (.inl (.inl hn))) (next hsuf) agree
        _ _ ?_
      intro v τ' agree' hx
      have atInner := next (tail (next hsuf))
      have atEnd := next (tail atInner)
      refine ⟨_, leadsOn_ifFalse hmarks atEnd hx, ?_, agree'⟩
      cases m.isZero v with
      | true =>
          exact .pass (.mark _ _)
            (.block hblock (fun n hn => hnames n (.inr hn)) (next atEnd) hmore)
      | false =>
          exact .block hbody (fun n hn => hnames n (.inl (.inr hn))) atInner
            (.pass (.goto _ _ (Machine.seek_of_suffix hmarks hsuf)) whole)
  | @branch pos cond onTrue onFalse _ _ c₁ c₂ c₃ _ test yes no after x he hT hF hblock =>
      simp only [Stmt.namesOf, Stmt.names, List.mem_append] at hnames
      simp only [List.append_assoc, List.cons_append] at hsuf ⊢
      refine matched_of_expr hfree he (fun n hn => hnames n (.inl (.inl hn))) hsuf agree _ _ ?_
      intro v τ' agree' hx
      have atYes := next (tail hsuf)
      have atElse := next (tail atYes)
      have atEnd := tail (next atElse)
      have afterwards : Follows s code (block ++ more) _ :=
        .pass (.mark (s.closing .otherwise c) _)
          (.block hblock (fun n hn => hnames n (.inr hn)) (next atEnd) hmore)
      refine ⟨_, leadsOn_ifFalse hmarks atElse hx, ?_, agree'⟩
      cases m.isZero v with
      | true =>
          exact .pass (.mark _ _)
            (.block hF (fun n hn => hnames n (.inl (.inr (.inr hn)))) (next atElse) afterwards)
      | false =>
          exact .block hT (fun n hn => hnames n (.inl (.inr (.inl hn)))) atYes
            (.pass (.goto _ _ (Machine.seek_of_suffix hmarks atEnd)) afterwards)

include hmarks hfree in
/-- Every step of a program is matched by its code. -/
theorem Matches.step {a : Source.State V} {b : Machine.State V} (h : Matches s code a b) :
    Matched m s code b (Source.step m a) := by
  obtain ⟨todo, σ⟩ := a
  obtain ⟨left, τ⟩ := b
  cases todo with
  | nil =>
      exact ⟨_, (h.follows.leads_nil m τ).trans_endsWith (.single rfl), .finished h.agree⟩
  | cons st ss =>
      obtain ⟨block, more, c, c', frag, rest, rfl, hemit, hnames, hsuf, hfol, leads⟩ :=
        h.follows.head
      exact .of_leads (leads m τ) (Emits.matched hmarks hfree hemit hnames hsuf hfol h.agree)

end Matching

/-- Code whose labels are all different and whose temporaries take no name of
the program simulates the program. -/
def simulation (m : Meaning V E) (hmarks : code.markNames.Nodup)
    (hfree : ∀ n ∈ s.taken, n ∉ code.tempNames) :
    Simulation (Source.step m) (Machine.step m code) where
  rel := Matches s code
  out := Outcome.Agrees code.tempNames
  square := by
    intro a a' b hm hstep
    have matched := hm.step (m := m) hmarks hfree
    rw [hstep] at matched
    exact matched
  close := by
    intro a o b hm hstep
    have matched := hm.step (m := m) hmarks hfree
    rw [hstep] at matched
    exact matched

/-- The machine passes declarations in front of the code. -/
theorem Follows.decls {ss : List Stmt} (h : Follows s code ss rest) {head : Code}
    (hhead : ∀ x ∈ head, ∃ ty name, x = .decl ty name) : Follows s code ss (head ++ rest) := by
  induction head with
  | nil => exact h
  | cons x head ih =>
      obtain ⟨ty, name, rfl⟩ := hhead x List.mem_cons_self
      exact .pass (.decl ty name _) (ih fun y hy => hhead y (List.mem_cons_of_mem _ hy))

/-- The code of a program does the statements of the program. -/
theorem follows_of_lower {o : LowerOptions} {p : Program} {lowered : Lowered}
    (h : p.lower o = .ok lowered) :
    Follows (o.scope p) lowered.code p.stmts lowered.code := by
  obtain ⟨_, body, c, hemit, rfl⟩ := lower_eq_ok_iff.mp h
  have names : ∀ n ∈ Stmt.namesOf p.stmts, n ∈ p.names := fun n hn => List.mem_append_right _ hn
  have hbody : ∀ head : Code, Follows (o.scope p) (head ++ body)
      p.stmts body := by
    intro head
    simpa using Follows.block hemit names (by simp) .finish
  cases o.noDecls with
  | true => exact hbody []
  | false => exact (hbody _).decls fun x hx => eq_decl_of_mem_decls hx

/-- Lowering preserves meaning. Whatever values and operators are, the code of a
supported program finishes if the program does, fails with the same error if
the program does, and runs forever if the program does; one of the three
happens. At the end of a run the stores agree on every name that is not the
name of a temporary of the code, and no name of the program is one. -/
theorem lower_preserves_meaning (m : Meaning V E) {p : Program} (hp : p.isSupported = true)
    {settings : List Setting} {lowered : Lowered}
    (h : p.lower (.ofSettings settings) = .ok lowered) (σ : Store V) :
    (∀ τ, p.Finishes m σ τ → ∃ τ', lowered.code.Finishes m σ τ' ∧
      AgreeOutside lowered.code.tempNames τ τ') ∧
    (∀ e τ, p.Fails m σ e τ → ∃ τ', lowered.code.Fails m σ e τ' ∧
      AgreeOutside lowered.code.tempNames τ τ') ∧
    (p.Diverges m σ → lowered.code.Diverges m σ) ∧
    ((∃ τ, p.Finishes m σ τ) ∨ (∃ e τ, p.Fails m σ e τ) ∨ p.Diverges m σ) ∧
    ∀ n ∈ p.names, n ∉ lowered.code.tempNames := by
  obtain ⟨c, hfrag⟩ := fragment_of_lower h
  have free : ∀ n ∈ p.names, n ∉ lowered.code.tempNames :=
    fun n hn => hfrag.not_mem_tempNames hn
  let sim := simulation (s := LowerOptions.scope (.ofSettings settings) p) m hfrag.markNames free
  have start : sim.rel ⟨p.stmts, σ⟩ ⟨lowered.code, σ⟩ := ⟨follows_of_lower h, fun _ _ => rfl⟩
  refine ⟨fun τ hτ => ?_, fun e τ hτ => ?_, sim.runsForever start, p.outcome m hp σ, free⟩
  · obtain ⟨q, ends, agrees⟩ := sim.endsWith start hτ
    cases agrees with
    | finished agree => exact ⟨_, ends, agree⟩
  · obtain ⟨q, ends, agrees⟩ := sim.endsWith start hτ
    cases agrees with
    | failed f agree => exact ⟨_, ends, agree⟩

/-- Natural numbers with just subtraction and comparison. -/
def counting : Meaning Nat Unit where
  literal text := if text = "1" then 1 else 0
  apply
    | .sub, a, b => .ok (a - b)
    | .gt, a, b => .ok (if b < a then 1 else 0)
    | _, _, _ => .error ()
  isZero n := n == 0

/-- Counts `t0` down to zero. -/
def countdown : Program :=
  ⟨0, [], [.loop 0 (.bin 0 .gt (.var 0 "t0") (.lit 0 "0"))
    [.assign 0 "t0" (.bin 0 .sub (.var 0 "t0") (.lit 0 "1"))]]⟩

theorem countdown_code_finishes : countdown.isSupported = true ∧
    ∃ lowered, countdown.lower (.ofSettings [.namedLabels]) = .ok lowered ∧
      ∃ τ, lowered.code.Finishes counting (fun _ => 2) τ ∧ τ "t0" = 0 := by
  obtain ⟨lowered, h⟩ : ∃ lowered, countdown.lower (.ofSettings [.namedLabels]) = .ok lowered :=
    exists_lower rfl rfl
  obtain ⟨τ, run, zero⟩ : ∃ τ, countdown.Finishes counting (fun _ => 2) τ ∧ τ "t0" = 0 :=
    ⟨_, ⟨6, rfl⟩, rfl⟩
  obtain ⟨finishes, _, _, _, free⟩ := lower_preserves_meaning counting rfl h fun _ => 2
  obtain ⟨τ', ends, agree⟩ := finishes τ run
  exact ⟨rfl, lowered, h, τ', ends, (agree "t0" (free "t0" (by decide))).symm.trans zero⟩

end ThreeAddress
