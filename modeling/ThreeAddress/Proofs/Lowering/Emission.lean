import ThreeAddress.Proofs.Attempt
import ThreeAddress.Proofs.Lowering.Names
import ThreeAddress.Proofs.Program.Blocks

/-!
# The shape of lowered code

`EmitsExpr` and `Emits` say which code lowering writes for which tree and how
it moves the counters on, one rule for each kind of node. `expr_eq_ok_iff` and
`block_eq_ok_iff` tie them to the walk itself, so that facts about lowered
code go by induction on the rules and never open the walk again.

`Emits` speaks about blocks only: each rule puts one statement in front of a
block, and the code of that statement in front of the block's code.
-/

namespace ThreeAddress.Lowering

variable {s : Scope}

/-! ## The labels of a loop or a branch -/

namespace Scope

/-- The first label of a loop or a branch: its start or its else part. -/
def opening (s : Scope) (purpose : Purpose) (c : Counters) : Label := (s.label purpose c).1

/-- The label at the end of a loop or a branch. -/
def closing (s : Scope) (purpose : Purpose) (c : Counters) : Label :=
  (s.label .finish (c.withLabel purpose)).1

end Scope

/-- The counters after both labels of a loop or a branch. -/
def Counters.withLabels (c : Counters) (purpose : Purpose) : Counters :=
  (c.withLabel purpose).withLabel .finish

section

variable (s) (purpose : Purpose) (c : Counters)

@[simp] theorem temps_withLabels : (c.withLabels purpose).temps = c.temps := by
  simp [Counters.withLabels]

@[simp] theorem serial_withLabels : (c.withLabels purpose).serial = c.serial := by
  simp [Counters.withLabels]

@[simp] theorem labels_withLabels : (c.withLabels purpose).labels = c.labels + 2 := by
  simp [Counters.withLabels]

@[simp] theorem id_opening : (s.opening purpose c).id = c.labels := rfl

@[simp] theorem id_closing : (s.closing purpose c).id = c.labels + 1 := by
  simp [Scope.closing, Scope.label]

end

/-! ## The rules -/

/-- Lowering the expression writes the code, leaves its value in the operand
and moves the counters from `c` on to the last argument. -/
inductive EmitsExpr (s : Scope) : Expr → Counters → Code → Operand → Counters → Prop
  | lit (pos : Int) (text : String) (c : Counters) :
      EmitsExpr s (.lit pos text) c [] (.lit text) c
  | var (pos : Int) (name : String) (c : Counters) :
      EmitsExpr s (.var pos name) c [] (.var name) c
  | bin (pos : Int) {op : Op} {l r : Expr} {c c₁ c₂ : Counters} {codeL codeR : Code}
      {x y : Operand} : op.isValid = true → EmitsExpr s l c codeL x c₁ →
      EmitsExpr s r c₁ codeR y c₂ →
      EmitsExpr s (.bin pos op l r) c (codeL ++ codeR ++ [.binop (s.temp c₂).1 op x y])
        (.temp (s.temp c₂).1) (s.temp c₂).2

/-- Lowering the block writes the code and moves the counters from `c` on to
the last argument. -/
inductive Emits (s : Scope) : List Stmt → Counters → Code → Counters → Prop
  | nil (c : Counters) : Emits s [] c [] c
  | assign (pos : Int) (name : String) {value : Expr} {rest : List Stmt}
      {c c₁ c₂ : Counters} {code more : Code} {x : Operand} :
      EmitsExpr s value c code x c₁ → Emits s rest c₁ more c₂ →
      Emits s (.assign pos name value :: rest) c (code ++ .copy name x :: more) c₂
  | loop (pos : Int) {cond : Expr} {body rest : List Stmt} {c c₁ c₂ c₃ : Counters}
      {test inner more : Code} {x : Operand} :
      EmitsExpr s cond (c.withLabels .loop) test x c₁ → Emits s body c₁ inner c₂ →
      Emits s rest c₂ more c₃ →
      Emits s (.loop pos cond body :: rest) c
        (.mark (s.opening .loop c) :: (test ++ .ifFalse x (s.closing .loop c) ::
          (inner ++ .goto (s.opening .loop c) :: .mark (s.closing .loop c) :: more))) c₃
  | branch (pos : Int) {cond : Expr} {onTrue onFalse rest : List Stmt}
      {c c₁ c₂ c₃ c₄ : Counters} {test yes no more : Code} {x : Operand} :
      EmitsExpr s cond (c.withLabels .otherwise) test x c₁ → Emits s onTrue c₁ yes c₂ →
      Emits s onFalse c₂ no c₃ → Emits s rest c₃ more c₄ →
      Emits s (.branch pos cond onTrue onFalse :: rest) c
        (test ++ .ifFalse x (s.opening .otherwise c) ::
          (yes ++ .goto (s.closing .otherwise c) :: .mark (s.opening .otherwise c) ::
            (no ++ .mark (s.closing .otherwise c) :: more))) c₄

/-! ## The walk follows the rules -/

theorem expr_eq_ok_iff {e : Expr} {c c' : Counters} {code : Code} {x : Operand} :
    expr s e c = .ok (code, x, c') ↔ EmitsExpr s e c code x c' := by
  constructor
  · intro h
    induction e generalizing c code x c' with
    | missing => cases h
    | lit pos text => cases h; exact .lit pos text _
    | var pos name => cases h; exact .var pos name _
    | bin pos op l r ihL ihR =>
        unfold expr at h
        split at h
        · rename_i hop
          obtain ⟨⟨codeL, left, c₁⟩, hl, h⟩ := bind_eq_ok_iff.mp h
          obtain ⟨⟨codeR, right, c₂⟩, hr, h⟩ := bind_eq_ok_iff.mp h
          cases h
          exact .bin pos hop (ihL hl) (ihR hr)
        · cases h
  · intro h
    induction h with
    | lit => rfl
    | var => rfl
    | bin pos hop _ _ ihL ihR => simp [expr, hop, ihL, ihR, bind, Except.bind, pure, Except.pure]

theorem block_eq_ok_iff {ss : List Stmt} {c c' : Counters} {code : Code} :
    block s ss c = .ok (code, c') ↔ Emits s ss c code c' := by
  constructor
  · intro h
    induction ss using Stmt.block_induction generalizing c code c' with
    | nil => cases h; exact .nil _
    | assign pos name value rest ih =>
        obtain ⟨⟨first, c₁⟩, hf, h⟩ := bind_eq_ok_iff.mp h
        obtain ⟨⟨more, c₂⟩, hm, h⟩ := bind_eq_ok_iff.mp h
        obtain ⟨⟨test, x, c₃⟩, ht, hf⟩ := bind_eq_ok_iff.mp hf
        cases h
        cases hf
        simpa using Emits.assign pos name (expr_eq_ok_iff.mp ht) (ih hm)
    | loop pos cond body rest ihB ih =>
        obtain ⟨⟨first, c₁⟩, hf, h⟩ := bind_eq_ok_iff.mp h
        obtain ⟨⟨more, c₂⟩, hm, h⟩ := bind_eq_ok_iff.mp h
        obtain ⟨⟨test, x, c₃⟩, ht, hf⟩ := bind_eq_ok_iff.mp hf
        obtain ⟨⟨inner, c₄⟩, hi, hf⟩ := bind_eq_ok_iff.mp hf
        cases h
        cases hf
        simpa [Scope.opening, Scope.closing, Scope.label] using
          Emits.loop pos (expr_eq_ok_iff.mp ht) (ihB hi) (ih hm)
    | branch pos cond onTrue onFalse rest ihT ihF ih =>
        obtain ⟨⟨first, c₁⟩, hf, h⟩ := bind_eq_ok_iff.mp h
        obtain ⟨⟨more, c₂⟩, hm, h⟩ := bind_eq_ok_iff.mp h
        obtain ⟨⟨test, x, c₃⟩, ht, hf⟩ := bind_eq_ok_iff.mp hf
        obtain ⟨⟨yes, c₄⟩, hy, hf⟩ := bind_eq_ok_iff.mp hf
        obtain ⟨⟨no, c₅⟩, hn, hf⟩ := bind_eq_ok_iff.mp hf
        cases h
        cases hf
        simpa [Scope.opening, Scope.closing, Scope.label] using
          Emits.branch pos (expr_eq_ok_iff.mp ht) (ihT hy) (ihF hn) (ih hm)
    | missing rest ih => cases h
  · intro h
    induction h with
    | nil => rfl
    | assign pos name he _ ih =>
        simp [block, stmt, expr_eq_ok_iff.mpr he, ih, bind, Except.bind, pure, Except.pure]
    | loop pos he _ _ ihB ih =>
        rw [Counters.withLabels] at he
        simp [block, stmt, Scope.label, Scope.opening, Scope.closing, expr_eq_ok_iff.mpr he, ihB,
          ih, bind, Except.bind, pure, Except.pure]
    | branch pos he _ _ _ ihT ihF ih =>
        rw [Counters.withLabels] at he
        simp [block, stmt, Scope.label, Scope.opening, Scope.closing, expr_eq_ok_iff.mpr he, ihT,
          ihF, ih, bind, Except.bind, pure, Except.pure]

/-- A program is lowered if its options pass the check and its statements are
lowered; the declarations, unless left out, come first. -/
theorem lower_eq_ok_iff {o : LowerOptions} {p : Program} {lowered : Lowered} :
    p.lower o = .ok lowered ↔ o.check = .ok () ∧ ∃ body c,
      Emits (o.scope p) p.stmts {} body c ∧
      lowered = ⟨(if o.noDecls then [] else decls p.decls) ++ body, c.temps, c.labels⟩ := by
  simp only [← block_eq_ok_iff, LowerOptions.scope]
  constructor
  · intro h
    obtain ⟨_, hok, h⟩ := bind_eq_ok_iff.mp h
    obtain ⟨⟨body, c⟩, hbody, h⟩ := bind_eq_ok_iff.mp h
    cases h
    exact ⟨hok, body, c, mapError_eq_ok_iff.mp hbody, rfl⟩
  · rintro ⟨hok, body, c, hbody, rfl⟩
    simp [Program.lower, hok, hbody, pure, Except.pure]

/-! ## Piece by piece -/

/-- A property of code between two states of the counters that can be checked
piece by piece: it holds of a label, of a jump and of the code of an expression
with the instruction that takes the value, and it is kept when pieces are put one
after the other and when labels are handed out before a piece. -/
structure Piecewise (s : Scope) (P : Counters → Counters → Code → Prop) : Prop where
  nil : ∀ c, P c c []
  mark : ∀ c l, P c c [.mark l]
  goto : ∀ c l, P c c [.goto l]
  copy : ∀ {e c code x c'}, EmitsExpr s e c code x c' → ∀ name, P c c' (code ++ [.copy name x])
  ifFalse : ∀ {e c code x c'}, EmitsExpr s e c code x c' → ∀ l, P c c' (code ++ [.ifFalse x l])
  append : ∀ {c c₁ c₂ code more}, P c c₁ code → P c₁ c₂ more → P c c₂ (code ++ more)
  labels : ∀ {c c' code} purpose, P (c.withLabels purpose) c' code → P c c' code

theorem Emits.piecewise {P : Counters → Counters → Code → Prop} (hP : Piecewise s P)
    {ss : List Stmt} {c c' : Counters} {code : Code} (h : Emits s ss c code c') : P c c' code := by
  induction h with
  | nil c => exact hP.nil c
  | assign pos name he _ ih => simpa using hP.append (hP.copy he name) ih
  | @loop pos _ _ _ c _ _ _ _ _ _ x he _ _ ihB ih =>
      have htest := hP.labels .loop
        (hP.append (hP.mark _ (s.opening .loop c)) (hP.ifFalse he (s.closing .loop c)))
      have hbody := hP.append ihB
        (hP.append (hP.goto _ (s.opening .loop c)) (hP.mark _ (s.closing .loop c)))
      simpa using hP.append htest (hP.append hbody ih)
  | @branch pos _ _ _ _ c _ _ _ _ _ _ _ _ x he _ _ _ ihT ihF ih =>
      have htest := hP.labels .otherwise (hP.ifFalse he (s.opening .otherwise c))
      have hyes := hP.append ihT
        (hP.append (hP.goto _ (s.closing .otherwise c)) (hP.mark _ (s.opening .otherwise c)))
      have hno := hP.append ihF (hP.mark _ (s.closing .otherwise c))
      simpa using hP.append htest (hP.append hyes (hP.append hno ih))

/-- What holds of declarations and can be checked piece by piece holds of all the
code of a program. -/
theorem Piecewise.of_lower {P : Counters → Counters → Code → Prop} {o : LowerOptions}
    {p : Program} {lowered : Lowered} (hP : Piecewise (o.scope p) P)
    (hdecls : ∀ c, P c c (decls p.decls)) (h : p.lower o = .ok lowered) :
    ∃ c, c.temps = lowered.temps ∧ P {} c lowered.code := by
  obtain ⟨-, body, c, hemits, rfl⟩ := lower_eq_ok_iff.mp h
  refine ⟨c, rfl, ?_⟩
  cases o.noDecls with
  | true => exact hemits.piecewise hP
  | false => exact hP.append (hdecls {}) (hemits.piecewise hP)

/-! ## Supported trees -/

theorem exists_emitsExpr {e : Expr} (h : e.isSupported = true) (c : Counters) :
    ∃ code x c', EmitsExpr s e c code x c' := by
  induction e generalizing c with
  | lit pos text => exact ⟨[], .lit text, c, .lit pos text c⟩
  | var pos name => exact ⟨[], .var name, c, .var pos name c⟩
  | bin pos op l r ihL ihR =>
      simp only [Expr.isSupported, Bool.and_eq_true] at h
      obtain ⟨codeL, x, c₁, hL⟩ := ihL h.1.2 c
      obtain ⟨codeR, y, c₂, hR⟩ := ihR h.2 c₁
      exact ⟨_, _, _, .bin pos h.1.1 hL hR⟩
  | missing => cases h

theorem exists_emits {ss : List Stmt} (h : Stmt.areSupported ss = true) (c : Counters) :
    ∃ code c', Emits s ss c code c' := by
  induction ss using Stmt.block_induction generalizing c with
  | nil => exact ⟨[], c, .nil c⟩
  | assign pos name value rest ih =>
      simp only [Stmt.areSupported, Stmt.isSupported, Bool.and_eq_true] at h
      obtain ⟨code, x, c₁, he⟩ := exists_emitsExpr (s := s) h.1 c
      obtain ⟨more, c₂, hrest⟩ := ih h.2 c₁
      exact ⟨_, _, .assign pos name he hrest⟩
  | loop pos cond body rest ihB ih =>
      simp only [Stmt.areSupported, Stmt.isSupported, Bool.and_eq_true] at h
      obtain ⟨test, x, c₁, he⟩ := exists_emitsExpr (s := s) h.1.1 (c.withLabels .loop)
      obtain ⟨inner, c₂, hbody⟩ := ihB h.1.2 c₁
      obtain ⟨more, c₃, hrest⟩ := ih h.2 c₂
      exact ⟨_, _, .loop pos he hbody hrest⟩
  | branch pos cond onTrue onFalse rest ihT ihF ih =>
      simp only [Stmt.areSupported, Stmt.isSupported, Bool.and_eq_true] at h
      obtain ⟨test, x, c₁, he⟩ := exists_emitsExpr (s := s) h.1.1.1 (c.withLabels .otherwise)
      obtain ⟨yes, c₂, hyes⟩ := ihT h.1.1.2 c₁
      obtain ⟨no, c₃, hno⟩ := ihF h.1.2 c₂
      obtain ⟨more, c₄, hrest⟩ := ih h.2 c₃
      exact ⟨_, _, .branch pos he hyes hno hrest⟩
  | missing rest ih => simp [Stmt.areSupported, Stmt.isSupported] at h

theorem exists_lower {o : LowerOptions} {p : Program} (hp : p.isSupported = true)
    (hok : o.check = .ok ()) : ∃ lowered, p.lower o = .ok lowered := by
  obtain ⟨body, c, hemits⟩ := exists_emits (s := o.scope p) hp {}
  exact ⟨_, lower_eq_ok_iff.mpr ⟨hok, body, c, hemits, rfl⟩⟩

theorem eq_decl_of_mem_decls {ds : List Decl} {x : Instr} (h : x ∈ decls ds) :
    ∃ ty name, x = .decl ty name := by
  obtain ⟨d, _, hx⟩ := List.mem_flatMap.mp h
  obtain ⟨name, _, rfl⟩ := List.mem_map.mp hx
  exact ⟨d.ty, name, rfl⟩

end ThreeAddress.Lowering
