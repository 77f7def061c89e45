import Mathlib.Logic.Function.Basic
import ThreeAddress.Code.Basic
import ThreeAddress.Proofs.Attempt
import ThreeAddress.Proofs.Program.Blocks
import ThreeAddress.Proofs.Semantics.Execution

/-!
# What programs and code mean

Programs and code run on a store that gives every name a value. What values
are, how literals are read, what operators compute and which values count as
zero is left open: a `Meaning` fixes it. Operators may fail.

A program runs by its statements, code by its instructions. In both cases a
state holds what is left to run and the store. Code left to run is a tail of
the whole code, and a jump goes on at the tail that begins with the label of
that name. The two share the store: a temporary is a name like any other.

A run may also get stuck, at a hole of the tree or the code or at a jump to
nowhere. A supported program never does (`Program.outcome`).
-/

namespace ThreeAddress

open Execution

universe u v

variable {V : Type u} {E : Type v}

/-- What literals, operators and zero are. -/
structure Meaning (V : Type u) (E : Type v) where
  literal : String → V
  apply : Op → V → V → Except E V
  isZero : V → Bool

/-- The values of all names. -/
abbrev Store (V : Type u) := String → V

/-- Why a run fails. -/
inductive Fault (E : Type v) where
  /-- An operator failed. -/
  | operator (error : E)
  /-- There was nothing to do next. -/
  | stuck

/-- How a run ends, and the store at that moment. -/
inductive Outcome (V : Type u) (E : Type v) where
  | finished (store : Store V)
  | failed (fault : Fault E) (store : Store V)

/-! ## Programs -/

/-- The value of an expression: left operand, right operand, operator. -/
def Expr.eval (m : Meaning V E) (σ : Store V) : Expr → Except (Fault E) V
  | .lit _ text => .ok (m.literal text)
  | .var _ name => .ok (σ name)
  | .bin _ op l r =>
    match l.eval m σ with
    | .error f => .error f
    | .ok a =>
      match r.eval m σ with
      | .error f => .error f
      | .ok b => (m.apply op a b).mapError .operator
  | .missing => .error .stuck

namespace Source

/-- A program in the middle of a run. -/
structure State (V : Type u) where
  todo : List Stmt
  store : Store V

/-- The value of an expression now. -/
def State.value (m : Meaning V E) (s : State V) (e : Expr) : Except (Outcome V E) V :=
  (e.eval m s.store).mapError (.failed · s.store)

/-- Runs the next statement up to the ones it holds. A loop whose condition is
not zero runs its body and then comes up again. -/
def step (m : Meaning V E) (s : State V) : Except (Outcome V E) (State V) :=
  match s.todo with
  | [] => .error (.finished s.store)
  | .assign _ name value :: rest => do
    let v ← s.value m value
    return ⟨rest, Function.update s.store name v⟩
  | .loop pos cond body :: rest => do
    let v ← s.value m cond
    return ⟨if m.isZero v then rest else body ++ .loop pos cond body :: rest, s.store⟩
  | .branch _ cond onTrue onFalse :: rest => do
    let v ← s.value m cond
    return ⟨(if m.isZero v then onFalse else onTrue) ++ rest, s.store⟩
  | .missing :: _ => .error (.failed .stuck s.store)

end Source

namespace Program

/-- The program, started with store `σ`, finishes with store `τ`. -/
def Finishes (m : Meaning V E) (p : Program) (σ τ : Store V) : Prop :=
  EndsWith (Source.step m) ⟨p.stmts, σ⟩ (.finished τ)

/-- The program, started with store `σ`, fails with store `τ` because of an
operator. -/
def Fails (m : Meaning V E) (p : Program) (σ : Store V) (e : E) (τ : Store V) : Prop :=
  EndsWith (Source.step m) ⟨p.stmts, σ⟩ (.failed (.operator e) τ)

/-- The program, started with store `σ`, runs forever. -/
def Diverges (m : Meaning V E) (p : Program) (σ : Store V) : Prop :=
  RunsForever (Source.step m) ⟨p.stmts, σ⟩

end Program

/-! ### Supported programs do not get stuck -/

theorem Expr.eval_ne_stuck (m : Meaning V E) (σ : Store V) {e : Expr}
    (he : e.isSupported = true) : e.eval m σ ≠ .error .stuck := by
  induction e with
  | lit pos text => simp [Expr.eval]
  | var pos name => simp [Expr.eval]
  | missing => cases he
  | bin pos op l r ihL ihR =>
      simp only [Expr.isSupported, Bool.and_eq_true] at he
      unfold Expr.eval
      cases hl : l.eval m σ with
      | error f => exact fun h => ihL he.1.2 (hl.trans h)
      | ok a =>
          cases hr : r.eval m σ with
          | error f => exact fun h => ihR he.2 (hr.trans h)
          | ok b =>
              show (m.apply op a b).mapError Fault.operator ≠ .error Fault.stuck
              cases m.apply op a b <;> simp

/-- One step keeps what is left to run supported, and does not get stuck. -/
theorem Source.step_supported (m : Meaning V E) {s : State V}
    (hs : Stmt.areSupported s.todo = true) :
    (∀ s', step m s = .ok s' → Stmt.areSupported s'.todo = true) ∧
      ∀ τ, step m s ≠ .error (.failed .stuck τ) := by
  obtain ⟨todo, σ⟩ := s
  have stays : ∀ e : Expr, e.isSupported = true →
      (∃ v, State.value m ⟨todo, σ⟩ e = .ok v) ∨
        ∃ err, State.value m ⟨todo, σ⟩ e = .error (.failed (.operator err) σ) := by
    intro e he
    have := e.eval_ne_stuck m σ he
    cases hv : e.eval m σ with
    | ok v => exact .inl ⟨v, by simp [State.value, hv]⟩
    | error f =>
        cases f with
        | stuck => exact absurd hv this
        | operator err => exact .inr ⟨err, by simp [State.value, hv]⟩
  cases todo with
  | nil => simp [step]
  | cons st rest =>
      simp only [Stmt.areSupported, Bool.and_eq_true] at hs
      cases st with
      | missing => exact absurd hs.1 (by simp [Stmt.isSupported])
      | assign pos name value =>
          simp only [Stmt.isSupported] at hs
          rcases stays value hs.1 with ⟨v, hv⟩ | ⟨err, hv⟩
          · simp [step, hv, bind, Except.bind, pure, Except.pure, hs.2]
          · simp [step, hv, bind, Except.bind]
      | loop pos cond body =>
          simp only [Stmt.isSupported, Bool.and_eq_true] at hs
          rcases stays cond hs.1.1 with ⟨v, hv⟩ | ⟨err, hv⟩
          · simp only [step, hv, bind, Except.bind, pure, Except.pure, Except.ok.injEq]
            refine ⟨?_, by simp⟩
            rintro _ rfl
            split <;> simp [Stmt.areSupported_append, Stmt.areSupported, Stmt.isSupported, hs]
          · simp [step, hv, bind, Except.bind]
      | branch pos cond onTrue onFalse =>
          simp only [Stmt.isSupported, Bool.and_eq_true] at hs
          rcases stays cond hs.1.1.1 with ⟨v, hv⟩ | ⟨err, hv⟩
          · simp only [step, hv, bind, Except.bind, pure, Except.pure, Except.ok.injEq]
            refine ⟨?_, by simp⟩
            rintro _ rfl
            split <;> simp [Stmt.areSupported_append, hs]
          · simp [step, hv, bind, Except.bind]

/-- A supported program finishes, fails because of an operator, or runs
forever. -/
theorem Program.outcome (m : Meaning V E) {p : Program} (hp : p.isSupported = true)
    (σ : Store V) :
    (∃ τ, p.Finishes m σ τ) ∨ (∃ e τ, p.Fails m σ e τ) ∨ p.Diverges m σ := by
  have unstuck : ∀ n (s : Source.State V), Stmt.areSupported s.todo = true → ∀ τ,
      steps (Source.step m) n s ≠ .error (.failed .stuck τ) := by
    intro n
    induction n with
    | zero => simp
    | succ n ih =>
        intro s hs τ
        have one := Source.step_supported m hs
        rw [steps_succ]
        cases h : Source.step m s with
        | ok s' => exact ih s' (one.1 s' h) τ
        | error o => exact fun same => one.2 τ (by rw [h, ← same]; rfl)
  rcases endsWith_or_runsForever (Source.step m) ⟨p.stmts, σ⟩ with ⟨o, n, ho⟩ | forever
  · match o with
    | .finished τ => exact .inl ⟨τ, n, ho⟩
    | .failed (.operator e) τ => exact .inr (.inl ⟨e, τ, n, ho⟩)
    | .failed .stuck τ => exact absurd ho (unstuck n ⟨p.stmts, σ⟩ hp τ)
  · exact .inr (.inr forever)

/-! ## Code -/

/-- The value of an operand. -/
def Operand.value (m : Meaning V E) (σ : Store V) : Operand → Except (Fault E) V
  | .temp t => .ok (σ t.name)
  | .var name => .ok (σ name)
  | .lit text => .ok (m.literal text)
  | .missing => .error .stuck

namespace Machine

/-- Code in the middle of a run. -/
structure State (V : Type u) where
  todo : Code
  store : Store V

/-- The tail of the code that begins with the label of the given name. -/
def seek (name : String) : Code → Option Code
  | [] => none
  | .mark l :: rest => if l.name = name then some (.mark l :: rest) else seek name rest
  | _ :: rest => seek name rest

/-- Goes on at a label. -/
def jump (code : Code) (l : Label) (σ : Store V) : Except (Outcome V E) (State V) :=
  match seek l.name code with
  | some rest => .ok ⟨rest, σ⟩
  | none => .error (.failed .stuck σ)

/-- The value of an operand now. -/
def State.value (m : Meaning V E) (s : State V) (x : Operand) : Except (Outcome V E) V :=
  (x.value m s.store).mapError (.failed · s.store)

/-- Runs the next instruction. -/
def step (m : Meaning V E) (code : Code) (s : State V) : Except (Outcome V E) (State V) :=
  match s.todo with
  | [] => .error (.finished s.store)
  | .decl .. :: rest => .ok ⟨rest, s.store⟩
  | .copy dst src :: rest => do
    let v ← s.value m src
    return ⟨rest, Function.update s.store dst v⟩
  | .binop dst op l r :: rest => do
    let a ← s.value m l
    let b ← s.value m r
    let v ← (m.apply op a b).mapError fun e => .failed (.operator e) s.store
    return ⟨rest, Function.update s.store dst.name v⟩
  | .mark _ :: rest => .ok ⟨rest, s.store⟩
  | .goto l :: _ => jump code l s.store
  | .ifFalse cond l :: rest => do
    let v ← s.value m cond
    if m.isZero v then jump code l s.store else return ⟨rest, s.store⟩
  | .missing :: _ => .error (.failed .stuck s.store)

variable {m : Meaning V E} {code rest : Code} {σ : Store V} {x y : Operand} {a b : V}

theorem value_of_ok {todo : Code} (hx : x.value m σ = .ok a) :
    State.value m ⟨todo, σ⟩ x = .ok a := by
  rw [State.value, hx, mapError_ok]

theorem step_copy (dst : String) (hx : x.value m σ = .ok a) :
    step m code ⟨.copy dst x :: rest, σ⟩ = .ok ⟨rest, Function.update σ dst a⟩ := by
  simp only [step, value_of_ok hx, ok_bind]
  rfl

theorem step_binop (t : Temp) (op : Op) (hx : x.value m σ = .ok a) (hy : y.value m σ = .ok b) :
    step m code ⟨.binop t op x y :: rest, σ⟩ =
      match m.apply op a b with
      | .ok v => .ok ⟨rest, Function.update σ t.name v⟩
      | .error e => .error (.failed (.operator e) σ) := by
  simp only [step, value_of_ok hx, value_of_ok hy, ok_bind]
  cases m.apply op a b <;> rfl

theorem step_ifFalse (l : Label) (hx : x.value m σ = .ok a) :
    step m code ⟨.ifFalse x l :: rest, σ⟩ =
      if m.isZero a then jump code l σ else .ok ⟨rest, σ⟩ := by
  simp only [step, value_of_ok hx, ok_bind]
  rfl

end Machine

namespace Code

/-- The code, started with store `σ`, runs off its end with store `τ`. -/
def Finishes (m : Meaning V E) (code : Code) (σ τ : Store V) : Prop :=
  EndsWith (Machine.step m code) ⟨code, σ⟩ (.finished τ)

/-- The code, started with store `σ`, fails with store `τ` because of an
operator. -/
def Fails (m : Meaning V E) (code : Code) (σ : Store V) (e : E) (τ : Store V) : Prop :=
  EndsWith (Machine.step m code) ⟨code, σ⟩ (.failed (.operator e) τ)

/-- The code, started with store `σ`, runs forever. -/
def Diverges (m : Meaning V E) (code : Code) (σ : Store V) : Prop :=
  RunsForever (Machine.step m code) ⟨code, σ⟩

end Code

end ThreeAddress
