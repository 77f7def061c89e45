import Mathlib.Data.List.Nodup
import ThreeAddress.Proofs.Lowering.Lifetimes

/-!
# The labels of loops and branches

Number the loops and branches of a program from 0, each before those in its
blocks. The `i`-th one goes by two labels: `2 * i`, where the loop starts or the
else part of the branch, and `2 * i + 1`, where it ends. Labels numbered through
are named by these numbers. Named labels are counted apart: ends by the place in
that order, loops among loops and else parts among branches.

Labels are handed out on the way into a loop or a branch and the last one is
placed on the way out, after all labels of the blocks inside. So what can be said
of code (`Labelled`) is which loops and branches it holds whole, and that its
labels belong to these or to the ones around it.
-/

namespace ThreeAddress

/-! ## Loops and branches in order -/

mutual

/-- The loops and branches in a statement, itself first, then block by block. -/
def Stmt.compounds : Stmt → List Stmt
  | .loop pos cond body => .loop pos cond body :: Stmt.compoundsOf body
  | .branch pos cond onTrue onFalse =>
    .branch pos cond onTrue onFalse :: (Stmt.compoundsOf onTrue ++ Stmt.compoundsOf onFalse)
  | .assign .. | .missing => []

/-- The loops and branches in a block, those of earlier statements first. -/
def Stmt.compoundsOf : List Stmt → List Stmt
  | [] => []
  | s :: rest => s.compounds ++ Stmt.compoundsOf rest

end

def Program.compounds (p : Program) : List Stmt := Stmt.compoundsOf p.stmts

section

variable (pos : Int) (rest : List Stmt)

@[simp] theorem compoundsOf_nil : Stmt.compoundsOf [] = [] := rfl

@[simp] theorem compoundsOf_assign (name : String) (value : Expr) :
    Stmt.compoundsOf (.assign pos name value :: rest) = Stmt.compoundsOf rest := rfl

@[simp] theorem compoundsOf_loop (cond : Expr) (body : List Stmt) :
    Stmt.compoundsOf (.loop pos cond body :: rest) =
      .loop pos cond body :: (Stmt.compoundsOf body ++ Stmt.compoundsOf rest) := rfl

@[simp] theorem compoundsOf_branch (cond : Expr) (onTrue onFalse : List Stmt) :
    Stmt.compoundsOf (.branch pos cond onTrue onFalse :: rest) =
      .branch pos cond onTrue onFalse ::
        (Stmt.compoundsOf onTrue ++ Stmt.compoundsOf onFalse ++ Stmt.compoundsOf rest) := rfl

end

def Stmt.isLoop : Stmt → Bool
  | .loop .. => true
  | _ => false

def Stmt.isBranch : Stmt → Bool
  | .branch .. => true
  | _ => false

/-- What the first label of a loop or a branch is for. -/
def Stmt.purpose? : Stmt → Option Purpose
  | .loop .. => some .loop
  | .branch .. => some .otherwise
  | _ => none

/-! ## Their labels -/

/-- The first label of the `i`-th loop or branch `st` of those in `all`. -/
def openingOf (named : Bool) (all : List Stmt) (i : Nat) (st : Stmt) : Label where
  id := 2 * i
  name :=
    if named then
      if st.isLoop then "WHILE" ++ toString ((all.take (i + 1)).countP Stmt.isLoop)
      else "ELSE" ++ toString ((all.take (i + 1)).countP Stmt.isBranch)
    else "L" ++ toString (2 * i)

/-- The label at the end of the `i`-th loop or branch. -/
def closingOf (named : Bool) (i : Nat) : Label where
  id := 2 * i + 1
  name := if named then "END" ++ toString (i + 1) else "L" ++ toString (2 * i + 1)

/-- The label is one of the two of the `i`-th loop or branch. -/
def IsLabelOf (named : Bool) (all : List Stmt) (i : Nat) (l : Label) : Prop :=
  ∃ st, all[i]? = some st ∧ (l = openingOf named all i st ∨ l = closingOf named i)

theorem IsLabelOf.id_lt {named : Bool} {all : List Stmt} {i : Nat} {l : Label}
    (h : IsLabelOf named all i l) : l.id < 2 * (i + 1) := by
  obtain ⟨st, -, rfl | rfl⟩ := h
  · show (2 * i : Int) < 2 * (i + 1)
    omega
  · show (2 * i + 1 : Int) < 2 * (i + 1)
    omega

namespace Lowering

/-- The code of a loop or a branch that goes by the labels `first` and `last`:
between the instructions that carry them stands the code of its parts. -/
inductive Wraps (s : Scope) (first last : Label) : Stmt → Code → Prop
  | loop (pos : Int) {cond : Expr} {body : List Stmt} {c c₁ c₂ : Counters} {test inner : Code}
      {x : Operand} : expr s cond c = .ok (test, x, c₁) → block s body c₁ = .ok (inner, c₂) →
      Wraps s first last (.loop pos cond body)
        (.mark first :: (test ++ .ifFalse x last :: (inner ++ [.goto first, .mark last])))
  | branch (pos : Int) {cond : Expr} {onTrue onFalse : List Stmt} {c c₁ c₂ c₃ : Counters}
      {test yes no : Code} {x : Operand} : expr s cond c = .ok (test, x, c₁) →
      block s onTrue c₁ = .ok (yes, c₂) → block s onFalse c₂ = .ok (no, c₃) →
      Wraps s first last (.branch pos cond onTrue onFalse)
        (test ++ .ifFalse x first :: (yes ++ .goto last :: .mark first :: (no ++ [.mark last])))

/-- The code of the `i`-th loop or branch `st` stands in the code and goes by its own
labels. All labels before it are of earlier loops and branches. -/
def HoldsAt (s : Scope) (all : List Stmt) (i : Nat) (st : Stmt) (code : Code) : Prop :=
  ∃ before own after, code = before ++ (own ++ after) ∧
    Wraps s (openingOf s.namedLabels all i st) (closingOf s.namedLabels i) st own ∧
    ∀ l ∈ before.labels, l.id < 2 * i

variable {s : Scope} {all done : List Stmt} {c c' : Counters} {code more : Code} {i a : Nat}
  {st : Stmt}

theorem HoldsAt.append_right (h : HoldsAt s all i st code) (more : Code) :
    HoldsAt s all i st (code ++ more) := by
  obtain ⟨before, own, after, rfl, hwraps, hbefore⟩ := h
  exact ⟨before, own, after ++ more, by simp, hwraps, hbefore⟩

theorem HoldsAt.append_left (h : HoldsAt s all i st code)
    (hmore : ∀ l ∈ more.labels, l.id < 2 * i) : HoldsAt s all i st (more ++ code) := by
  obtain ⟨before, own, after, rfl, hwraps, hbefore⟩ := h
  refine ⟨more ++ before, own, after, by simp, hwraps, fun l hl => ?_⟩
  rw [Code.labels_append, List.mem_append] at hl
  rcases hl with hl | hl
  · exact hmore l hl
  · exact hbefore l hl

/-! ## Code and the loops and branches in it -/

/-- The code holds the loops and branches `sts`, which are numbered from `a` on,
and has no labels but theirs and those of earlier ones. -/
structure Labelled (s : Scope) (all : List Stmt) (a : Nat) (sts : List Stmt) (code : Code) :
    Prop where
  listed : ∀ l ∈ code.labels, ∃ i < a + sts.length, IsLabelOf s.namedLabels all i l
  held : ∀ i st, sts[i]? = some st → HoldsAt s all (a + i) st code

namespace Labelled

variable {sts sts' : List Stmt}

/-- Code with labels of earlier loops and branches only. -/
theorem outer (h : ∀ l ∈ code.labels, ∃ i < a, IsLabelOf s.namedLabels all i l) :
    Labelled s all a [] code where
  listed := h
  held i st hst := by cases hst

/-- Code with the labels of one earlier loop or branch. -/
theorem ends (hst : all[a]? = some st) {b : Nat} (hab : a < b)
    (h : ∀ l ∈ code.labels, l = openingOf s.namedLabels all a st ∨ l = closingOf s.namedLabels a) :
    Labelled s all b [] code :=
  .outer fun l hl => ⟨a, hab, st, hst, h l hl⟩

theorem append {b : Nat} (h : Labelled s all a sts code) (h' : Labelled s all b sts' more)
    (hb : b = a + sts.length) : Labelled s all a (sts ++ sts') (code ++ more) where
  listed l hl := by
    rw [List.length_append]
    rw [Code.labels_append, List.mem_append] at hl
    rcases hl with hl | hl
    · obtain ⟨i, hi, hlabel⟩ := h.listed l hl
      exact ⟨i, by omega, hlabel⟩
    · obtain ⟨i, hi, hlabel⟩ := h'.listed l hl
      exact ⟨i, by omega, hlabel⟩
  held i st hst := by
    by_cases hi : i < sts.length
    · rw [List.getElem?_append_left hi] at hst
      exact (h.held i st hst).append_right more
    · rw [List.getElem?_append_right (by omega)] at hst
      have hholds := h'.held (i - sts.length) st hst
      rw [show b + (i - sts.length) = a + i by omega] at hholds
      refine hholds.append_left fun l hl => ?_
      obtain ⟨j, hj, hlabel⟩ := h.listed l hl
      have := hlabel.id_lt
      omega

/-- The code of a loop or a branch holds it and all that its blocks hold. -/
theorem wrap (h : Labelled s all (a + 1) sts code)
    (hwraps : Wraps s (openingOf s.namedLabels all a st) (closingOf s.namedLabels a) st code) :
    Labelled s all a (st :: sts) code where
  listed l hl := by
    obtain ⟨i, hi, hlabel⟩ := h.listed l hl
    exact ⟨i, by rw [List.length_cons]; omega, hlabel⟩
  held i st' hst := by
    cases i with
    | zero =>
        cases hst
        exact ⟨[], code, [], by simp, hwraps, by simp⟩
    | succ i =>
        have hholds := h.held i st' (by simpa using hst)
        rwa [show a + 1 + i = a + (i + 1) by omega] at hholds

end Labelled

/-! ## Counters and labels -/

/-- The counters after the loops and branches `done`. -/
structure Counters.Tallies (c : Counters) (done : List Stmt) : Prop where
  labels : c.labels = 2 * done.length
  loops : c.count .loop = done.countP Stmt.isLoop
  otherwises : c.count .otherwise = done.countP Stmt.isBranch
  finishes : c.count .finish = done.length

namespace Counters.Tallies

variable {purpose : Purpose}

/-- On the way into a loop or a branch both of its labels are counted. -/
theorem enter (h : c.Tallies done) (st : Stmt) (hst : st.purpose? = some purpose) :
    (c.withLabels purpose).Tallies (done ++ [st]) := by
  cases st with
  | loop | branch =>
      cases hst
      constructor
      · simp [h.labels, Nat.mul_add]
      · simp [withLabels, h.loops, Stmt.isLoop]
      · simp [withLabels, h.otherwises, Stmt.isBranch]
      · simp [withLabels, h.finishes]
  | assign | missing => cases hst

/-- Expressions have no labels. -/
theorem expr {e : Expr} {x : Operand} (h : c.Tallies done) (he : EmitsExpr s e c code x c') :
    c'.Tallies done := by
  induction he with
  | lit | var => exact h
  | bin pos _ _ _ ihL ihR =>
      obtain ⟨labels, loops, otherwises, finishes⟩ := ihR (ihL h)
      exact ⟨labels, loops, otherwises, finishes⟩

theorem opening_eq (h : c.Tallies done) (hst : st.purpose? = some purpose)
    (hall : done ++ [st] <+: all) :
    s.opening purpose c = openingOf s.namedLabels all done.length st := by
  have htake : all.take (done.length + 1) = done ++ [st] := by
    simpa using (List.prefix_iff_eq_take.mp hall).symm
  unfold Scope.opening Scope.label openingOf
  rw [htake]
  cases st with
  | loop | branch =>
      cases hst
      simp [h.labels, h.loops, h.otherwises, Stmt.isLoop, Stmt.isBranch, Purpose.word, plainLabel]
  | assign | missing => cases hst

theorem closing_eq (h : c.Tallies done) (st : Stmt) (hst : st.purpose? = some purpose) :
    s.closing purpose c = closingOf s.namedLabels done.length := by
  unfold Scope.closing Scope.label closingOf
  cases st with
  | loop | branch =>
      cases hst
      simp [h.labels, h.finishes, Purpose.word, plainLabel]
  | assign | missing => cases hst

end Counters.Tallies

/-- The counters after a block. -/
theorem Emits.tallies {ss : List Stmt} (h : Emits s ss c code c') (hc : c.Tallies done) :
    c'.Tallies (done ++ Stmt.compoundsOf ss) := by
  induction h generalizing done with
  | nil c => simpa using hc
  | assign pos name he _ ih => simpa using ih (hc.expr he)
  | @loop pos cond body _ _ _ _ _ _ _ _ _ he _ _ ihB ih =>
      have hbody := ihB ((hc.enter (.loop pos cond body) rfl).expr he)
      simpa using ih hbody
  | @branch pos cond onTrue onFalse _ _ _ _ _ _ _ _ _ _ _ he _ _ _ ihT ihF ih =>
      have hyes := ihT ((hc.enter (.branch pos cond onTrue onFalse) rfl).expr he)
      simpa using ih (ihF hyes)

/-! ## Blocks -/

theorem EmitsExpr.labels_eq_nil {e : Expr} {x : Operand} (h : EmitsExpr s e c code x c') :
    code.labels = [] := Code.Straight.labels_eq_nil h.pending.straight

section

variable {pos : Int} {cond : Expr} {c₀ c₁ c₂ c₃ : Counters} {test : Code} {x : Operand}

theorem Labelled.loop {body : List Stmt} {inner : Code}
    (hst : all[a]? = some (.loop pos cond body)) (he : EmitsExpr s cond c₀ test x c₁)
    (hB : Emits s body c₁ inner c₂)
    (h : Labelled s all (a + 1) (Stmt.compoundsOf body) inner) :
    let first := openingOf s.namedLabels all a (.loop pos cond body)
    let last := closingOf s.namedLabels a
    Labelled s all a (.loop pos cond body :: Stmt.compoundsOf body)
      (.mark first :: (test ++ .ifFalse x last :: (inner ++ [.goto first, .mark last]))) := by
  intro first last
  have hhead : Labelled s all (a + 1) [] (.mark first :: (test ++ [.ifFalse x last])) :=
    .ends hst (Nat.lt_succ_self a) (by simp [he.labels_eq_nil, Instr.label?, first, last])
  have htail : Labelled s all (a + 1 + (Stmt.compoundsOf body).length) []
      [.goto first, .mark last] :=
    .ends hst (by omega) (by simp [Instr.label?, first, last])
  refine .wrap ?_ (.loop pos (expr_eq_ok_iff.mpr he) (block_eq_ok_iff.mpr hB))
  simpa using (hhead.append h rfl).append htail (by simp)

theorem Labelled.branch {onTrue onFalse : List Stmt} {yes no : Code}
    (hst : all[a]? = some (.branch pos cond onTrue onFalse)) (he : EmitsExpr s cond c₀ test x c₁)
    (hT : Emits s onTrue c₁ yes c₂) (hF : Emits s onFalse c₂ no c₃)
    (h : Labelled s all (a + 1) (Stmt.compoundsOf onTrue) yes)
    (h' : Labelled s all (a + 1 + (Stmt.compoundsOf onTrue).length) (Stmt.compoundsOf onFalse) no) :
    let first := openingOf s.namedLabels all a (.branch pos cond onTrue onFalse)
    let last := closingOf s.namedLabels a
    Labelled s all a
      (.branch pos cond onTrue onFalse :: (Stmt.compoundsOf onTrue ++ Stmt.compoundsOf onFalse))
      (test ++ .ifFalse x first ::
        (yes ++ .goto last :: .mark first :: (no ++ [.mark last]))) := by
  intro first last
  have hhead : Labelled s all (a + 1) [] (test ++ [.ifFalse x first]) :=
    .ends hst (Nat.lt_succ_self a) (by simp [he.labels_eq_nil, Instr.label?, first])
  have hturn : Labelled s all (a + 1 + (Stmt.compoundsOf onTrue).length) []
      [.goto last, .mark first] :=
    .ends hst (by omega) (by simp [Instr.label?, first, last])
  have htail : Labelled s all
      (a + 1 + (Stmt.compoundsOf onTrue).length + (Stmt.compoundsOf onFalse).length) []
      [.mark last] :=
    .ends hst (by omega) (by simp [Instr.label?, last])
  refine .wrap ?_
    (.branch pos (expr_eq_ok_iff.mpr he) (block_eq_ok_iff.mpr hT) (block_eq_ok_iff.mpr hF))
  simpa using (hhead.append h rfl).append hturn (by simp) |>.append h' (by simp)
    |>.append htail (by simp; omega)

end

theorem getElem?_length_done (h : done ++ [st] <+: all) : all[done.length]? = some st := by
  obtain ⟨more, rfl⟩ := h
  simp

/-- The code of a block is labelled by the loops and branches in it, which come
right after `done` in the order of all. -/
theorem Emits.labelled {ss : List Stmt} (h : Emits s ss c code c') (hc : c.Tallies done)
    (hall : done ++ Stmt.compoundsOf ss <+: all) :
    Labelled s all done.length (Stmt.compoundsOf ss) code := by
  induction h generalizing done with
  | nil c => exact .outer (by simp)
  | @assign pos name value rest c c₁ c₂ code more x he _ ih =>
      have hvalue : Labelled s all done.length [] (code ++ [.copy name x]) :=
        .outer (by simp [he.labels_eq_nil, Instr.label?])
      have hrest := ih (hc.expr he) hall
      simpa using hvalue.append hrest rfl
  | @loop pos cond body rest c c₁ c₂ c₃ test inner more x he hB _ ihB ih =>
      let st : Stmt := .loop pos cond body
      have hc₁ : c₁.Tallies (done ++ [st]) := (hc.enter st rfl).expr he
      -- what is done before the rest, before the body and on the way in
      have hbehind : done ++ [st] ++ Stmt.compoundsOf body ++ Stmt.compoundsOf rest <+: all := by
        simpa [st] using hall
      have hin := (List.prefix_append _ _).trans hbehind
      have hhere := (List.prefix_append _ _).trans hin
      have hbody := ihB hc₁ hin
      have hrest := ih (hB.tallies hc₁) hbehind
      rw [List.length_append, List.length_singleton] at hbody
      rw [hc.opening_eq rfl hhere, hc.closing_eq st rfl]
      simpa using (Labelled.loop (getElem?_length_done hhere) he hB hbody).append hrest (by simp)
  | @branch pos cond onTrue onFalse rest c c₁ c₂ c₃ c₄ test yes no more x he hT hF _ ihT ihF ih =>
      let st : Stmt := .branch pos cond onTrue onFalse
      have hc₁ : c₁.Tallies (done ++ [st]) := (hc.enter st rfl).expr he
      have hc₂ := hT.tallies hc₁
      have hbehind : done ++ [st] ++ Stmt.compoundsOf onTrue ++ Stmt.compoundsOf onFalse ++
          Stmt.compoundsOf rest <+: all := by
        simpa [st] using hall
      have hbetween := (List.prefix_append _ _).trans hbehind
      have hin := (List.prefix_append _ _).trans hbetween
      have hhere := (List.prefix_append _ _).trans hin
      have hyes := ihT hc₁ hin
      have hno := ihF hc₂ hbetween
      have hrest := ih (hF.tallies hc₂) hbehind
      rw [List.length_append, List.length_singleton] at hyes
      rw [List.length_append, List.length_append, List.length_singleton] at hno
      rw [hc.opening_eq rfl hhere, hc.closing_eq st rfl]
      simpa using
        (Labelled.branch (getElem?_length_done hhere) he hT hF hyes hno).append hrest (by simp)

/-! ## Whole programs -/

theorem labels_decls (ds : List Decl) : Code.labels (decls ds) = [] := by
  refine List.filterMap_eq_nil_iff.mpr fun x hx => ?_
  obtain ⟨ty, name, rfl⟩ := eq_decl_of_mem_decls hx
  rfl

theorem labelled_of_lower {o : LowerOptions} {p : Program} {lowered : Lowered}
    (h : p.lower o = .ok lowered) :
    Labelled (o.scope p) p.compounds 0 p.compounds lowered.code := by
  obtain ⟨-, body, c, hemits, rfl⟩ := lower_eq_ok_iff.mp h
  have hstart : Counters.Tallies {} [] := ⟨rfl, rfl, rfl, rfl⟩
  have hbody : Labelled (o.scope p) p.compounds 0 p.compounds body :=
    hemits.labelled hstart (List.prefix_refl _)
  cases o.noDecls with
  | true => exact hbody
  | false =>
      have hdecls : Labelled (o.scope p) p.compounds 0 [] (decls p.decls) :=
        .outer (by simp [labels_decls])
      exact hdecls.append hbody rfl

theorem Wraps.marks {first last : Label} (h : Wraps s first last st code) :
    first ∈ code.marks ∧ last ∈ code.marks := by
  cases h with
  | loop | branch => simp [Instr.placed?]

/-- The labels of a loop or a branch that the code holds are placed in it. -/
theorem HoldsAt.marks (h : HoldsAt s all i st code) :
    openingOf s.namedLabels all i st ∈ code.marks ∧ closingOf s.namedLabels i ∈ code.marks := by
  obtain ⟨before, own, after, rfl, hwraps, -⟩ := h
  obtain ⟨hfirst, hlast⟩ := hwraps.marks
  simp [hfirst, hlast]

/-- Labels that those of every loop and branch in the code are among have all the
numbers. -/
theorem Labelled.mem_ids {sts : List Stmt} (h : Labelled s all 0 sts code) {labels : List Label}
    (hlabels : ∀ i st, HoldsAt s all i st code →
      openingOf s.namedLabels all i st ∈ labels ∧ closingOf s.namedLabels i ∈ labels) {k : Nat}
    (hk : k < 2 * sts.length) : (k : Int) ∈ labels.map Label.id := by
  have hi : k / 2 < sts.length := by omega
  have hheld := h.held (k / 2) _ (List.getElem?_eq_getElem hi)
  rw [Nat.zero_add] at hheld
  obtain ⟨hfirst, hlast⟩ := hlabels _ _ hheld
  rcases Nat.mod_two_eq_zero_or_one k with heven | hodd
  · refine List.mem_map.mpr ⟨_, hfirst, ?_⟩
    show (2 * (k / 2 : Nat) : Int) = k
    omega
  · refine List.mem_map.mpr ⟨_, hlast, ?_⟩
    show (2 * (k / 2 : Nat) + 1 : Int) = k
    omega

/-- Both numbers of every loop and branch are placed. -/
theorem Labelled.mem_marks {sts : List Stmt} (h : Labelled s all 0 sts code) {k : Nat}
    (hk : k < 2 * sts.length) : (k : Int) ∈ code.marks.map Label.id :=
  h.mem_ids (fun _ _ => HoldsAt.marks) hk

end Lowering

/-- The labels of the code are those of the loops and branches of the program, in
the order of these. -/
structure Program.NumbersLabels (p : Program) (s : Lowering.Scope) (code : Code) : Prop where
  /-- The code of the `i`-th loop or branch goes by the labels `2 * i` and `2 * i + 1`. -/
  held : ∀ i st, p.compounds[i]? = some st → Lowering.HoldsAt s p.compounds i st code
  /-- All labels, of marks and of jumps, are among these, name and number. -/
  listed : ∀ l ∈ code.labels, ∃ i < p.compounds.length, IsLabelOf s.namedLabels p.compounds i l
  placed : ∀ k < 2 * p.compounds.length, (code.marks.map Label.id).count (k : Int) = 1

/-- Labels number the loops and branches. In the code of a supported program the
`i`-th loop or branch, counted from the outside in and from the front, goes by the
labels `2 * i` and `2 * i + 1`, which are named after these numbers or after their
purposes. Each of them is placed once, and there are no others. -/
theorem labels_number_loops_and_branches {p : Program} (hp : p.isSupported = true)
    (settings : List Setting) (hok : (LowerOptions.ofSettings settings).check = .ok ()) :
    ∃ lowered, p.lower (.ofSettings settings) = .ok lowered ∧
      p.NumbersLabels ((LowerOptions.ofSettings settings).scope p) lowered.code := by
  obtain ⟨lowered, hlower⟩ := Lowering.exists_lower hp hok
  have hlabelled := Lowering.labelled_of_lower hlower
  obtain ⟨c, hfragment⟩ := Lowering.fragment_of_lower hlower
  refine ⟨lowered, hlower, ?_, ?_, ?_⟩
  · intro i st hst
    have hheld := hlabelled.held i st hst
    rwa [Nat.zero_add] at hheld
  · intro l hl
    obtain ⟨i, hi, hlabel⟩ := hlabelled.listed l hl
    exact ⟨i, by omega, hlabel⟩
  · intro k hk
    exact List.count_eq_one_of_mem hfragment.markIds (hlabelled.mem_marks hk)

/-- The loop in the else part is the third of all and the second loop. -/
theorem crowded_labels_number_loops_and_branches :
    crowded.isSupported = true ∧ (LowerOptions.ofSettings [.namedLabels]).check = .ok () ∧
      ∃ lowered, crowded.lower (.ofSettings [.namedLabels]) = .ok lowered ∧
        crowded.NumbersLabels ((LowerOptions.ofSettings [.namedLabels]).scope crowded)
          lowered.code ∧
        openingOf true crowded.compounds 2 (.loop 0 (.var 0 "i") []) = ⟨4, "WHILE2"⟩ ∧
        closingOf true 2 = ⟨5, "END3"⟩ := by
  obtain ⟨lowered, hlower, hnumbers⟩ :=
    labels_number_loops_and_branches (p := crowded) rfl [.namedLabels] rfl
  exact ⟨rfl, rfl, lowered, hlower, hnumbers, rfl, rfl⟩

end ThreeAddress
