import ThreeAddress.Proofs.Program.Blocks

/-!
# Where names occur

`Program.names` collects names on a walk over the tree. What it should collect is
said here without a walk: a statement occurs in a block if it stands there or in
a block inside (`Stmt.Occurs`), and a program mentions a name if it declares it
or has, anywhere, a statement that assigns or reads it (`Program.Mentions`). The
walk misses none of these and finds nothing else (`Program.mem_names_iff`).
-/

namespace ThreeAddress

/-- The expression reads the name. -/
inductive Expr.Reads (name : String) : Expr → Prop
  | var (pos : Int) : Reads name (.var pos name)
  | left {pos : Int} {op : Op} {l r : Expr} : Reads name l → Reads name (.bin pos op l r)
  | right {pos : Int} {op : Op} {l r : Expr} : Reads name r → Reads name (.bin pos op l r)

namespace Stmt

/-- The statement stands in the block, or in a block inside it. -/
inductive Occurs (x : Stmt) : List Stmt → Prop
  | here (rest : List Stmt) : Occurs x (x :: rest)
  | later {y : Stmt} {rest : List Stmt} : Occurs x rest → Occurs x (y :: rest)
  | body {pos : Int} {cond : Expr} {body rest : List Stmt} : Occurs x body →
      Occurs x (.loop pos cond body :: rest)
  | onTrue {pos : Int} {cond : Expr} {onTrue onFalse rest : List Stmt} : Occurs x onTrue →
      Occurs x (.branch pos cond onTrue onFalse :: rest)
  | onFalse {pos : Int} {cond : Expr} {onTrue onFalse rest : List Stmt} : Occurs x onFalse →
      Occurs x (.branch pos cond onTrue onFalse :: rest)

/-- The expression of a statement: the value it assigns or the condition it tests. -/
def expr? : Stmt → Option Expr
  | .assign _ _ value => some value
  | .loop _ cond _ | .branch _ cond _ _ => some cond
  | .missing => none

/-- The statement itself, not one in its blocks, assigns or reads the name. -/
inductive Touches (name : String) : Stmt → Prop
  | assigned (pos : Int) (value : Expr) : Touches name (.assign pos name value)
  | read {x : Stmt} {e : Expr} : x.expr? = some e → e.Reads name → Touches name x

end Stmt

/-- The program declares, assigns or reads the name. -/
def Program.Mentions (p : Program) (name : String) : Prop :=
  (∃ d ∈ p.decls, name ∈ d.names) ∨ ∃ x : Stmt, x.Occurs p.stmts ∧ x.Touches name

/-! ## The walk finds them -/

variable {name : String}

theorem Expr.mem_names_iff {e : Expr} : name ∈ e.names ↔ e.Reads name := by
  constructor
  · intro h
    induction e with
    | bin pos op l r ihL ihR =>
        rcases List.mem_append.mp h with h | h
        · exact .left (ihL h)
        · exact .right (ihR h)
    | var pos n =>
        cases List.mem_singleton.mp h
        exact .var pos
    | lit | missing => cases h
  · intro h
    induction h with
    | var pos => exact List.mem_singleton.mpr rfl
    | left _ ih => exact List.mem_append_left _ ih
    | right _ ih => exact List.mem_append_right _ ih

namespace Stmt

theorem Touches.mem_names {x : Stmt} (h : x.Touches name) : name ∈ x.names := by
  cases h with
  | assigned pos value => exact List.mem_cons_self
  | @read x e he hreads =>
      have hmem := Expr.mem_names_iff.mpr hreads
      cases x with
      | assign =>
          cases he
          exact List.mem_cons_of_mem _ hmem
      | loop | branch =>
          cases he
          exact List.mem_append_left _ hmem
      | missing => cases he

theorem Occurs.mem_namesOf {x : Stmt} {ss : List Stmt} (h : x.Occurs ss) (hx : x.Touches name) :
    name ∈ namesOf ss := by
  induction h with
  | here rest => exact List.mem_append_left _ hx.mem_names
  | later _ ih => exact List.mem_append_right _ ih
  | body _ ih => exact List.mem_append_left _ (List.mem_append_right _ ih)
  | onTrue _ ih =>
      exact List.mem_append_left _ (List.mem_append_right _ (List.mem_append_left _ ih))
  | onFalse _ ih =>
      exact List.mem_append_left _ (List.mem_append_right _ (List.mem_append_right _ ih))

/-- What touches a name in one block does so in any block around it. -/
theorem exists_occurs_of_imp {ss around : List Stmt}
    (haround : ∀ {x : Stmt}, x.Occurs ss → x.Occurs around)
    (h : ∃ x : Stmt, x.Occurs ss ∧ x.Touches name) :
    ∃ x : Stmt, x.Occurs around ∧ x.Touches name := by
  obtain ⟨x, hx, htouches⟩ := h
  exact ⟨x, haround hx, htouches⟩

/-- A name collected from a block comes from a statement that occurs in it. -/
theorem exists_occurs {ss : List Stmt} (h : name ∈ namesOf ss) :
    ∃ x : Stmt, x.Occurs ss ∧ x.Touches name := by
  induction ss using block_induction with
  | nil => cases h
  | assign pos n value rest ih =>
      rcases List.mem_append.mp h with h | h
      · refine ⟨_, .here rest, ?_⟩
        rcases List.mem_cons.mp h with rfl | h
        · exact .assigned pos value
        · exact .read rfl (Expr.mem_names_iff.mp h)
      · exact exists_occurs_of_imp .later (ih h)
  | loop pos cond body rest ihB ih =>
      rcases List.mem_append.mp h with h | h
      · rcases List.mem_append.mp h with h | h
        · exact ⟨_, .here rest, .read rfl (Expr.mem_names_iff.mp h)⟩
        · exact exists_occurs_of_imp .body (ihB h)
      · exact exists_occurs_of_imp .later (ih h)
  | branch pos cond onTrue onFalse rest ihT ihF ih =>
      rcases List.mem_append.mp h with h | h
      · rcases List.mem_append.mp h with h | h
        · exact ⟨_, .here rest, .read rfl (Expr.mem_names_iff.mp h)⟩
        · rcases List.mem_append.mp h with h | h
          · exact exists_occurs_of_imp .onTrue (ihT h)
          · exact exists_occurs_of_imp .onFalse (ihF h)
      · exact exists_occurs_of_imp .later (ih h)
  | missing rest ih => exact exists_occurs_of_imp .later (ih h)

end Stmt

/-- The names collected are the names mentioned. -/
theorem Program.mem_names_iff {p : Program} : name ∈ p.names ↔ p.Mentions name := by
  rw [Program.names, List.mem_append, List.mem_flatMap]
  constructor
  · rintro (hdecl | hstmt)
    · exact .inl hdecl
    · exact .inr (Stmt.exists_occurs hstmt)
  · rintro (hdecl | ⟨x, hx, htouches⟩)
    · exact .inl hdecl
    · exact .inr (hx.mem_namesOf htouches)

end ThreeAddress
