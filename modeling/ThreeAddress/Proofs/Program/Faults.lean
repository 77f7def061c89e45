import ThreeAddress.Code.Lowering
import ThreeAddress.Program.Printer
import ThreeAddress.Proofs.Attempt
import ThreeAddress.Proofs.Program.Blocks

/-!
# Faults of a tree

Printing and lowering both go over a tree and both stop at a hole and at an
operator outside the language, each with an error of its own. What they go over
is said here once, apart from both: `Program.walk` lists all nodes in pre-order,
each with the way to it. The error of either is that of the first faulty node on
the list, so the two refuse the same trees, and at the same node.
-/

namespace ThreeAddress

/-! ## The walk -/

/-- A node of a tree. -/
inductive Node where
  | stmt (x : Stmt)
  | expr (x : Expr)

/-- A node met on a walk, and the way to it. -/
structure Visit where
  path : List Site
  node : Node

/-- The visit as it looks from one step up the tree. -/
def Visit.under (site : Site) (v : Visit) : Visit := { v with path := site :: v.path }

/-- All nodes of an expression: an operator, what is left of it, what is right of it. -/
def Expr.walk : Expr → List Visit
  | .bin pos op l r =>
    ⟨[], .expr (.bin pos op l r)⟩ :: (l.walk.map (.under .left) ++ r.walk.map (.under .right))
  | .lit pos text => [⟨[], .expr (.lit pos text)⟩]
  | .var pos name => [⟨[], .expr (.var pos name)⟩]
  | .missing => [⟨[], .expr .missing⟩]

mutual

/-- All nodes of a statement: the statement, its value or condition, its blocks. -/
def Stmt.walk : Stmt → List Visit
  | .assign pos name value =>
    ⟨[], .stmt (.assign pos name value)⟩ :: value.walk.map (.under (.assignment name))
  | .loop pos cond body =>
    ⟨[], .stmt (.loop pos cond body)⟩ ::
      (cond.walk.map (.under (.condition .loop)) ++ (Stmt.walkAll body).map (.under .loopBody))
  | .branch pos cond onTrue onFalse =>
    ⟨[], .stmt (.branch pos cond onTrue onFalse)⟩ ::
      (cond.walk.map (.under (.condition .branch)) ++
        ((Stmt.walkAll onTrue).map (.under .thenBlock) ++
          (Stmt.walkAll onFalse).map (.under .elseBlock)))
  | .missing => [⟨[], .stmt .missing⟩]

/-- All nodes of the statements of a block, one statement after the other. -/
def Stmt.walkAll : List Stmt → List Visit
  | [] => []
  | s :: rest => s.walk ++ Stmt.walkAll rest

end

/-- All nodes of a program in pre-order. -/
def Program.walk (p : Program) : List Visit := (Stmt.walkAll p.stmts).map (.under .program)

/-! ## Faulty nodes -/

/-- A hole, or an operator outside the language. What stands below a node does not
count. -/
inductive Node.Faulty : Node → Prop
  | stmt : Faulty (.stmt .missing)
  | expr : Faulty (.expr .missing)
  | operator {pos : Int} {op : Op} {l r : Expr} : op.isValid = false →
      Faulty (.expr (.bin pos op l r))

/-- What is wrong with a node, if anything is. -/
def Node.defect? : Node → Option Defect
  | .stmt .missing => some .missingStmt
  | .expr .missing => some .missingExpr
  | .expr (.bin _ op _ _) => if op.isValid then none else some (.operator op)
  | _ => none

theorem Node.defect?_bin {pos : Int} {op : Op} {l r : Expr} (hop : op.isValid = true) :
    defect? (.expr (.bin pos op l r)) = none := by
  rw [defect?, if_pos hop]

theorem Node.defect?_eq_none_iff {n : Node} : n.defect? = none ↔ ¬ n.Faulty := by
  constructor
  · intro hnone hfaulty
    cases hfaulty with
    | stmt => cases hnone
    | expr => cases hnone
    | operator hop => simp [defect?, hop] at hnone
  · intro hsound
    cases n with
    | stmt x =>
        cases x with
        | missing => exact absurd .stmt hsound
        | assign | loop | branch => rfl
    | expr x =>
        cases x with
        | missing => exact absurd .expr hsound
        | lit | var => rfl
        | bin pos op l r =>
            cases hop : op.isValid with
            | true => exact defect?_bin hop
            | false => exact absurd (.operator hop) hsound

instance (n : Node) : Decidable n.Faulty :=
  decidable_of_iff (¬ n.defect?.isNone = true) <| by
    rw [Option.isNone_iff_eq_none, Node.defect?_eq_none_iff, Classical.not_not]

/-- The error that a visited node gives, with the way to it. -/
def Visit.fault? (v : Visit) : Option FormatError := v.node.defect?.map (⟨v.path, ·⟩)

/-! ## The first fault -/

def firstFault (vs : List Visit) : Option FormatError := vs.findSome? Visit.fault?

/-- What is wrong with the first faulty node, wherever it is. -/
def firstDefect (vs : List Visit) : Option Defect := (firstFault vs).map FormatError.defect

/-- The error as it looks from one step up the tree. -/
def FormatError.under (site : Site) (e : FormatError) : FormatError :=
  { e with path := site :: e.path }

section

variable (site : Site) (v : Visit) (us vs : List Visit)

@[simp] theorem firstFault_cons : firstFault (v :: vs) = v.fault?.or (firstFault vs) := by
  rw [firstFault, List.findSome?_cons]
  cases v.fault? <;> rfl

@[simp] theorem firstFault_append :
    firstFault (us ++ vs) = (firstFault us).or (firstFault vs) := List.findSome?_append

@[simp] theorem firstFault_under :
    firstFault (vs.map (.under site)) = (firstFault vs).map (.under site) := by
  have hfault : Visit.fault? ∘ Visit.under site = Option.map (.under site) ∘ Visit.fault? := by
    funext v
    show v.node.defect?.map _ = (v.node.defect?.map _).map _
    rw [Option.map_map]
    rfl
  rw [firstFault, firstFault, List.findSome?_map, List.map_findSome?, hfault]

@[simp] theorem firstDefect_cons :
    firstDefect (v :: vs) = v.node.defect?.or (firstDefect vs) := by
  have hnode : v.fault?.map FormatError.defect = v.node.defect? := by
    rw [Visit.fault?, Option.map_map]
    exact Option.map_id'
  rw [firstDefect, firstFault_cons, Option.map_or, hnode]
  rfl

@[simp] theorem firstDefect_append :
    firstDefect (us ++ vs) = (firstDefect us).or (firstDefect vs) := by
  rw [firstDefect, firstFault_append, Option.map_or]
  rfl

@[simp] theorem firstDefect_under : firstDefect (vs.map (.under site)) = firstDefect vs := by
  rw [firstDefect, firstFault_under, Option.map_map]
  rfl

theorem firstFault_eq_none_iff : firstFault vs = none ↔ ∀ v ∈ vs, ¬ v.node.Faulty := by
  simp only [firstFault, List.findSome?_eq_none_iff, Visit.fault?, Option.map_eq_none_iff,
    Node.defect?_eq_none_iff]

end

theorem firstFault_of_split {before after : List Visit} {v : Visit} {d : Defect}
    (hbefore : ∀ u ∈ before, ¬ u.node.Faulty) (hv : v.node.defect? = some d) :
    firstFault (before ++ v :: after) = some ⟨v.path, d⟩ := by
  rw [firstFault_append, (firstFault_eq_none_iff before).mpr hbefore, firstFault_cons,
    Visit.fault?, hv]
  rfl

/-! ## Where printing stops -/

namespace Printer

theorem failure_within {site : Site} {r : Printed} {first : Option FormatError}
    (h : failure r = first) : failure (within site r) = first.map (.under site) := by
  subst h
  cases r with
  | error e => rfl
  | ok s => rfl

theorem failure_expr (x : Expr) (level : Nat) (text : String) :
    failure (expr level x text) = firstFault x.walk := by
  induction x generalizing level text with
  | bin pos op l r ihL ihR =>
      rw [expr]
      by_cases hop : op.prec = 0
      · -- an operator that binds in no way is outside the language
        simp [Expr.walk, Visit.fault?, Node.defect?, hop, Op.prec_eq_zero_iff.mp hop]
      · have hvalid : op.isValid = true := by simpa [Op.prec_eq_zero_iff] using hop
        rw [if_neg hop]
        refine (failure_bind (failure_within (ihL _ _)) fun left =>
          failure_bind_ok (failure_within (ihR _ _)) fun right => failure_ok _).trans ?_
        simp [Expr.walk, Visit.fault?, Node.defect?_bin hvalid]
  | lit | var | missing => rfl

theorem failure_heading (depth : Nat) (clause : Clause) (cond : Expr) (text : String) :
    failure (heading depth clause cond text) =
      (firstFault cond.walk).map (.under (.condition clause)) :=
  failure_bind_ok (failure_within (failure_expr cond 0 _)) fun _ => failure_ok _

theorem failure_cons {depth : Nat} {s : Stmt} {ss : List Stmt} {first more : Option FormatError}
    {text : String} (hs : failure (stmt depth s text) = first)
    (hss : ∀ text, failure (block depth ss text) = more) :
    failure (block depth (s :: ss) text) = first.or more := failure_bind hs hss

theorem failure_block (ss : List Stmt) (depth : Nat) (text : String) :
    failure (block depth ss text) = firstFault (Stmt.walkAll ss) := by
  induction ss using Stmt.block_induction generalizing depth text with
  | nil => rfl
  | assign pos name value rest ih =>
      have hstmt : failure (stmt depth (.assign pos name value) text) = _ :=
        failure_bind_ok (failure_within (failure_expr value 0 _)) fun text => failure_ok _
      rw [failure_cons hstmt (ih depth)]
      simp [Stmt.walkAll, Stmt.walk, Visit.fault?, Node.defect?]
  | loop pos cond body rest ihBody ihRest =>
      have hstmt : failure (stmt depth (.loop pos cond body) text) = _ :=
        failure_bind (failure_heading depth .loop cond text) fun text =>
          failure_bind_ok (failure_within (ihBody _ text)) fun text => failure_ok _
      rw [failure_cons hstmt (ihRest depth)]
      simp [Stmt.walkAll, Stmt.walk, Visit.fault?, Node.defect?, Option.or_assoc]
  | branch pos cond onTrue onFalse rest ihTrue ihFalse ihRest =>
      -- an empty block is not printed, and has no faults
      have hfalse : ∀ text, failure (do
          if onFalse.isEmpty then return text ++ closing depth
          else
            let text := text ++ otherwise depth
            let text ← within .elseBlock (block (depth + 1) onFalse text)
            return text ++ closing depth) =
          (firstFault (Stmt.walkAll onFalse)).map (.under .elseBlock) := by
        intro text
        cases onFalse with
        | nil => rfl
        | cons s ss => exact failure_bind_ok (failure_within (ihFalse _ _)) fun _ => failure_ok _
      have hstmt : failure (stmt depth (.branch pos cond onTrue onFalse) text) = _ :=
        failure_bind (failure_heading depth .branch cond text) fun text =>
          failure_bind (failure_within (ihTrue _ text)) hfalse
      rw [failure_cons hstmt (ihRest depth)]
      simp [Stmt.walkAll, Stmt.walk, Visit.fault?, Node.defect?, Option.or_assoc]
  | missing rest ih => rfl

end Printer

theorem Program.failure_formatOnto (text : String) (p : Program) :
    failure (p.formatOnto text) = firstFault p.walk := by
  rw [Program.walk, firstFault_under]
  exact Printer.failure_within (Printer.failure_block p.stmts 0 _)

/-- A message names the way first and the fault last. -/
theorem FormatError.message_eq (path : List Site) (d : Defect) : message ⟨path, d⟩ =
    String.join (path.map fun site => site.label ++ ": ") ++ reason d := by
  induction path with
  | nil => rw [List.map_nil, String.join_nil, String.empty_append]; rfl
  | cons site path ih =>
      rw [List.map_cons, String.join_cons, String.append_assoc, ← ih]
      rfl

/-! ## Where lowering stops -/

namespace Lowering

variable (s : Scope)

theorem failure_expr (x : Expr) (c : Counters) : failure (expr s x c) = firstDefect x.walk := by
  induction x generalizing c with
  | bin pos op l r ihL ihR =>
      rw [expr]
      by_cases hop : op.isValid = true
      · rw [if_pos hop]
        refine (failure_bind (ihL c) fun left =>
          failure_bind_ok (ihR _) fun right => failure_ok _).trans ?_
        simp [Expr.walk, Node.defect?_bin hop]
      · simp [Expr.walk, Node.defect?, hop]
  | lit | var | missing => rfl

theorem failure_cons {x : Stmt} {xs : List Stmt} {c : Counters} {first more : Option Defect}
    (hx : failure (stmt s x c) = first) (hxs : ∀ c, failure (block s xs c) = more) :
    failure (block s (x :: xs) c) = first.or more :=
  failure_bind hx fun _ => failure_bind_ok (hxs _) fun _ => failure_ok _

theorem failure_block (ss : List Stmt) (c : Counters) :
    failure (block s ss c) = firstDefect (Stmt.walkAll ss) := by
  -- the counters differ from node to node, but no failure depends on them
  induction ss using Stmt.block_induction generalizing c with
  | nil => rfl
  | assign pos name value rest ih =>
      have hstmt : failure (stmt s (.assign pos name value) c) = _ :=
        failure_bind_ok (failure_expr s value c) fun code => failure_ok _
      rw [failure_cons s hstmt ih]
      simp [Stmt.walkAll, Stmt.walk, Node.defect?]
  | loop pos cond body rest ihBody ihRest =>
      have hstmt : failure (stmt s (.loop pos cond body) c) = _ :=
        failure_bind (failure_expr s cond _) fun test =>
          failure_bind_ok (ihBody _) fun inner => failure_ok _
      rw [failure_cons s hstmt ihRest]
      simp [Stmt.walkAll, Stmt.walk, Node.defect?, Option.or_assoc]
  | branch pos cond onTrue onFalse rest ihTrue ihFalse ihRest =>
      have hstmt : failure (stmt s (.branch pos cond onTrue onFalse) c) = _ :=
        failure_bind (failure_expr s cond _) fun test =>
          failure_bind (ihTrue _) fun yes =>
            failure_bind_ok (ihFalse _) fun no => failure_ok _
      rw [failure_cons s hstmt ihRest]
      simp [Stmt.walkAll, Stmt.walk, Node.defect?, Option.or_assoc]
  | missing rest ih => rfl

end Lowering

theorem Program.failure_lower {o : LowerOptions} (hok : o.check = .ok ()) (p : Program) :
    failure (p.lower o) = (firstDefect p.walk).map .defect := by
  have hbody : ∀ s, failure ((Lowering.block s p.stmts {}).mapError LowerError.defect) =
      (firstDefect p.walk).map .defect := by
    intro s
    rw [Program.walk, firstDefect_under, ← Lowering.failure_block s p.stmts {}]
    cases Lowering.block s p.stmts {} with
    | error d => rfl
    | ok body => rfl
  rw [Program.lower, hok, ok_bind]
  exact failure_bind_ok (hbody _) fun body => failure_ok _

/-! ## Both stop at the first fault -/

/-- The node at the end of the path keeps the program from being lowered and from
being printed, and the last part of the printer's message is `reason`. -/
structure Program.StopsAt (p : Program) (o : LowerOptions) (text : String) (path : List Site)
    (d : Defect) (reason : String) : Prop where
  lowering : p.lower o = .error (.defect d)
  printing : p.formatOnto text = .error ⟨path, d⟩
  message : FormatError.message ⟨path, d⟩ =
    String.join (path.map fun site => site.label ++ ": ") ++ reason

theorem Program.stopsAt_of_split {p : Program} {o : LowerOptions} (hok : o.check = .ok ())
    (text : String) {before after : List Visit} {v : Visit} {d : Defect}
    (hwalk : p.walk = before ++ v :: after) (hbefore : ∀ u ∈ before, ¬ u.node.Faulty)
    (hv : v.node.defect? = some d) : p.StopsAt o text v.path d (FormatError.reason d) := by
  have hfirst : firstFault p.walk = some ⟨v.path, d⟩ := by
    rw [hwalk]
    exact firstFault_of_split hbefore hv
  constructor
  · rw [← failure_eq_some_iff, p.failure_lower hok, firstDefect, hfirst]
    rfl
  · rw [← failure_eq_some_iff, p.failure_formatOnto, hfirst]
  · exact FormatError.message_eq v.path d

/-- Lowering and printing refuse the same trees, and at the same node. With options
that pass their check, a program cannot be lowered iff it cannot be printed, and
that is iff a hole or an operator outside the language stands somewhere in it. Both
errors tell of the first such node in pre-order, and the printer's of the way to it
as well. -/
theorem first_fault_stops_lowering_and_printing {settings : List Setting}
    (hok : (LowerOptions.ofSettings settings).check = .ok ()) (p : Program) (text : String) :
    ((∃ e, p.lower (.ofSettings settings) = .error e) ↔ ∃ e, p.formatOnto text = .error e) ∧
    ((∃ e, p.formatOnto text = .error e) ↔ ∃ v ∈ p.walk, v.node.Faulty) ∧
    ∀ before v after, p.walk = before ++ v :: after → (∀ u ∈ before, ¬ u.node.Faulty) →
      (∀ pos op l r, v.node = .expr (.bin pos op l r) → op.isValid = false →
        p.StopsAt (.ofSettings settings) text v.path (.operator op)
          ("unsupported operator: " ++ op.symbol)) ∧
      (v.node = .expr .missing →
        p.StopsAt (.ofSettings settings) text v.path .missingExpr "unsupported expr: <nil>") ∧
      (v.node = .stmt .missing →
        p.StopsAt (.ofSettings settings) text v.path .missingStmt "unsupported stmt: <nil>") := by
  have hprint := p.failure_formatOnto text
  have hlower := p.failure_lower hok
  refine ⟨?_, ?_, fun before v after hwalk hbefore => ⟨?_, ?_, ?_⟩⟩
  · simp only [← failure_eq_some_iff, hprint, hlower, firstDefect]
    cases firstFault p.walk with
    | none => simp
    | some e => simp
  · simp only [← failure_eq_some_iff, hprint]
    rw [← Option.ne_none_iff_exists', ne_eq, firstFault_eq_none_iff]
    simp
  · intro pos op l r hnode hop
    have hdefect : v.node.defect? = some (.operator op) := by simp [hnode, Node.defect?, hop]
    exact Program.stopsAt_of_split hok text hwalk hbefore hdefect
  · intro hnode
    have hdefect : v.node.defect? = some .missingExpr := by rw [hnode]; rfl
    exact Program.stopsAt_of_split hok text hwalk hbefore hdefect
  · intro hnode
    have hdefect : v.node.defect? = some .missingStmt := by rw [hnode]; rfl
    exact Program.stopsAt_of_split hok text hwalk hbefore hdefect

/-- An unknown operator over a hole, in the condition of a loop over another hole. -/
def patchy : Program :=
  ⟨0, [], [.assign 0 "a" (.lit 0 "1"),
    .loop 0 (.bin 0 .lt (.var 0 "a") (.bin 0 (.ofCode 50) .missing (.lit 0 "2"))) [.missing]]⟩

/-- The operator comes before both holes. -/
theorem patchy_stops_at_operator :
    (LowerOptions.ofSettings [.tempStem "L", .namedLabels]).check = .ok () ∧
    patchy.lower (.ofSettings [.tempStem "L", .namedLabels]) =
      .error (.defect (.operator (.ofCode 50))) ∧
    ∃ e, patchy.formatOnto "" = .error e ∧
      e.message = "program: while cond: right: unsupported operator: Op(50)" := by
  have hok : (LowerOptions.ofSettings [.tempStem "L", .namedLabels]).check = .ok () := rfl
  have hstops := ((first_fault_stops_lowering_and_printing hok patchy "").2.2
    (patchy.walk.take 5) _ (patchy.walk.drop 6) rfl (by decide)).1 0 (.ofCode 50) .missing
    (.lit 0 "2") rfl rfl
  exact ⟨hok, hstops.lowering, _, hstops.printing, hstops.message⟩

end ThreeAddress
