import Mathlib.Data.List.Basic
import ThreeAddress.Proofs.Code.Exactness

/-!
# How control flows through code

A run of code is told by the places of the instructions it has executed. From an
instruction it goes on to the next one, or to a mark whose label has the number
of the jump's label; after a conditional jump it may do either, so a run need not
agree with any values.

The check reads code from front to back and does not follow jumps. What an
accepted instruction reads is therefore assigned before it in the code, and a
run that has not executed that assignment has jumped over it
(`Runs.executed_or_jumped_over`).
-/

namespace ThreeAddress

/-- Whether control goes on behind the instruction. -/
def Instr.fallsThrough : Instr → Bool
  | .goto _ => false
  | _ => true

namespace Code

/-- The instruction at `i` jumps, or may jump, to the mark at `j`. -/
def JumpsTo (code : Code) (i j : Nat) : Prop :=
  ∃ x l m, code[i]? = some x ∧ x.jump? = some l ∧ code[j]? = some (.mark m) ∧ m.id = l.id

/-- Where control goes, or may go, from the instruction at a place. The place
behind the last instruction is the end. -/
inductive Flow (code : Code) : Nat → Nat → Prop
  | next {i : Nat} {x : Instr} : code[i]? = some x → x.fallsThrough = true → Flow code i (i + 1)
  | jump {i j : Nat} : code.JumpsTo i j → Flow code i j

/-- A run from the first instruction on has executed the instructions at `past`,
in that order, and stands at `i`. -/
inductive Runs (code : Code) : List Nat → Nat → Prop
  | start : Runs code [] 0
  | step {past : List Nat} {i j : Nat} : Runs code past i → code.Flow i j →
      Runs code (past ++ [i]) j

/-- The run went from one of the places to the next by a jump that passes over
the instruction at `j`. -/
def JumpedOver (code : Code) (places : List Nat) (j : Nat) : Prop :=
  ∃ a b, [a, b] <:+: places ∧ code.JumpsTo a b ∧ a < j ∧ j < b

variable {code : Code} {past places : List Nat} {i j : Nat}

theorem JumpedOver.concat (h : code.JumpedOver places j) (i : Nat) :
    code.JumpedOver (places ++ [i]) j := by
  obtain ⟨a, b, hab, hjump, ha, hb⟩ := h
  refine ⟨a, b, ?_, hjump, ha, hb⟩
  exact hab.trans (List.prefix_append places [i]).isInfix

/-- A run that stands behind an instruction has executed it or has jumped over
it. -/
theorem Runs.executed_or_jumped_over (h : code.Runs past i) (hj : j < i) :
    j ∈ past ∨ code.JumpedOver (past ++ [i]) j := by
  induction h with
  | start => omega
  | @step past k i hrun hflow ih =>
      -- the last step starts behind `j`, at `j` or before it
      rcases Nat.lt_trichotomy j k with hlt | rfl | hgt
      · rcases ih hlt with hmem | hover
        · exact .inl (List.mem_append_left _ hmem)
        · exact .inr (hover.concat i)
      · exact .inl (by simp)
      · -- to come from before `j` to behind it takes a jump
        cases hflow with
        | next => omega
        | jump hjump =>
            refine .inr ⟨k, i, ?_, hjump, hgt, hj⟩
            rw [List.append_assoc]
            exact (List.suffix_append past [k, i]).isInfix

end Code

/-! ## Reading temporaries -/

/-- What accepted code reads was assigned, unless that was jumped over. Whenever
a run of accepted code is about to read a temporary, an operator that assigns it
stands before the reading instruction, and the run has executed that operator
already or has jumped over it. -/
theorem read_assigned_or_jumped_over {code : Code} (hok : code.verify = .ok ())
    {past : List Nat} {i : Nat} (hrun : code.Runs past i) {x : Instr} (hx : code[i]? = some x)
    {t : Temp} (ht : .temp t ∈ x.reads) :
    ∃ (j : Nat) (dst : Temp) (op : Op) (l r : Operand),
      code[j]? = some (.binop dst op l r) ∧ dst.id = t.id ∧ j < i ∧
        (j ∈ past ∨ code.JumpedOver (past ++ [i]) j) := by
  have hreads := Code.readsOwn_iff.mp (Code.wellFormed_of_verify hok).reads
  obtain ⟨j, dst, op, l, r, hj, hbinop, hid⟩ := hreads i x t hx ht
  exact ⟨j, dst, op, l, r, hbinop, hid, hj, hrun.executed_or_jumped_over hj⟩

/-- Skips the second of two readings of `t0` or not. -/
def fork : Code :=
  [.binop ⟨0, "t0"⟩ .lt (.var "a") (.lit "2"), .ifFalse (.temp ⟨0, "t0"⟩) ⟨0, "L0"⟩,
    .copy "x" (.temp ⟨0, "t0"⟩), .mark ⟨0, "L0"⟩]

theorem fork_reads_assigned :
    fork.verify = .ok () ∧ fork.Runs [0, 1] 2 ∧
    fork[2]? = some (.copy "x" (.temp ⟨0, "t0"⟩)) ∧
    ∃ (j : Nat) (dst : Temp) (op : Op) (l r : Operand),
      fork[j]? = some (.binop dst op l r) ∧ dst.id = 0 ∧ j < 2 ∧
        (j ∈ [0, 1] ∨ fork.JumpedOver [0, 1, 2] j) := by
  have hok : fork.verify = .ok () := by decide +kernel
  have hrun : fork.Runs [0, 1] 2 :=
    .step (.step .start (.next rfl rfl)) (.next rfl rfl)
  exact ⟨hok, hrun, rfl, read_assigned_or_jumped_over hok hrun rfl List.mem_cons_self⟩

/-- Jumps over the operator whose temporary it reads behind the jump. -/
def detour : Code :=
  [.goto ⟨0, "L0"⟩, .binop ⟨0, "t0"⟩ .add (.lit "1") (.lit "2"), .mark ⟨0, "L0"⟩,
    .copy "x" (.temp ⟨0, "t0"⟩)]

/-- Accepted code may read a temporary that was never assigned: in `detour` no
operator is executed before the reading. -/
theorem detour_reads_unassigned :
    detour.verify = .ok () ∧
    ¬ ∀ (past : List Nat) (i : Nat) (x : Instr) (t : Temp), detour.Runs past i →
      detour[i]? = some x → .temp t ∈ x.reads →
      ∃ j ∈ past, ∃ (dst : Temp) (op : Op) (l r : Operand),
        detour[j]? = some (.binop dst op l r) ∧ dst.id = t.id := by
  refine ⟨by decide +kernel, fun h => ?_⟩
  have hjump : detour.JumpsTo 0 2 := ⟨_, ⟨0, "L0"⟩, ⟨0, "L0"⟩, rfl, rfl, rfl, rfl⟩
  have hrun : detour.Runs [0, 2] 3 := .step (.step .start (.jump hjump)) (.next rfl rfl)
  obtain ⟨j, hj, dst, op, l, r, hbinop, -⟩ := h [0, 2] 3 _ _ hrun rfl List.mem_cons_self
  -- the run has executed the jump and the mark, and neither is an operator
  simp only [List.mem_cons, List.not_mem_nil, or_false] at hj
  rcases hj with rfl | rfl
  · cases hbinop
  · cases hbinop

end ThreeAddress
