import Mathlib.Data.List.Basic
import ThreeAddress.Proofs.Code.Acceptance
import ThreeAddress.Proofs.Lowering.Freshness

/-!
# Lowered code passes the check

Everything lowered code introduces is introduced once, under a name of its own
(`Fragment`). What is left is its order: operators come after their operands,
so temporaries are read after they are assigned, and both labels that a loop or
a branch jumps to are placed by the same loop or branch.
-/

namespace ThreeAddress

namespace Lowering

variable {s : Scope} {c c' : Counters} {code : Code}

/-! ## Order -/

/-- Instructions that are known, and read what is assigned before them. -/
structure InOrder (code : Code) : Prop where
  known : ∀ x ∈ code, x.isKnown = true
  reads : code.ReadsOwn

namespace InOrder

theorem nil : InOrder [] := ⟨by simp, Code.readsOwn_of_reads_eq_nil (by simp)⟩

theorem single {x : Instr} (hknown : x.isKnown = true) (hreads : x.reads = []) : InOrder [x] :=
  ⟨by simpa using hknown, Code.readsOwn_of_reads_eq_nil (by simpa using hreads)⟩

theorem decls (ds : List Decl) : InOrder (decls ds) := by
  refine ⟨fun x hx => ?_, Code.readsOwn_of_reads_eq_nil fun x hx => ?_⟩
  · obtain ⟨ty, name, rfl⟩ := eq_decl_of_mem_decls hx
    rfl
  · obtain ⟨ty, name, rfl⟩ := eq_decl_of_mem_decls hx
    rfl

theorem append {more : Code} (h : InOrder code) (h' : InOrder more) : InOrder (code ++ more) := by
  refine ⟨fun x hx => ?_, h.reads.append h'.reads⟩
  rcases List.mem_append.mp hx with hx | hx
  · exact h.known x hx
  · exact h'.known x hx

theorem concat {x : Instr} (h : InOrder code) (hknown : x.isKnown = true)
    (hreads : ∀ t, .temp t ∈ x.reads → t ∈ code.temps) : InOrder (code ++ [x]) := by
  refine ⟨fun y hy => ?_, h.reads.concat fun t ht => List.mem_map_of_mem (hreads t ht)⟩
  rcases List.mem_append.mp hy with hy | hy
  · exact h.known y hy
  · rw [List.mem_singleton] at hy
    rwa [hy]

end InOrder

/-- The code of an expression assigns the temporary that holds its value. -/
theorem EmitsExpr.inOrder {e : Expr} {x : Operand} (h : EmitsExpr s e c code x c') :
    InOrder code ∧ ∀ t, x = .temp t → t ∈ code.temps := by
  induction h with
  | lit | var => exact ⟨.nil, by simp⟩
  | @bin pos op l r c c₁ c₂ codeL codeR x y hop _ _ ihL ihR =>
      -- both operands are assigned by the time the operator reads them
      obtain ⟨hL, hx⟩ := ihL
      obtain ⟨hR, hy⟩ := ihR
      refine ⟨(hL.append hR).concat hop fun t ht => ?_, ?_⟩
      · simp only [Instr.reads, List.mem_cons, List.not_mem_nil, or_false] at ht
        rw [Code.temps_append, List.mem_append]
        rcases ht with ht | ht
        · exact .inl (hx t ht.symm)
        · exact .inr (hy t ht.symm)
      · rintro t ⟨⟩
        simp [Instr.assigned?]

/-- Code of an expression, and an instruction that takes the value. -/
theorem EmitsExpr.inOrder_concat {e : Expr} {x : Operand} {y : Instr}
    (h : EmitsExpr s e c code x c') (hknown : y.isKnown = true) (hreads : y.reads = [x]) :
    InOrder (code ++ [y]) := by
  obtain ⟨hcode, hx⟩ := h.inOrder
  refine hcode.concat hknown fun t ht => hx t ?_
  rw [hreads, List.mem_singleton] at ht
  exact ht.symm

theorem inOrder_piecewise : Piecewise s fun _ _ code => InOrder code where
  nil _ := .nil
  mark _ _ := .single rfl rfl
  goto _ _ := .single rfl rfl
  copy he _ := he.inOrder_concat rfl rfl
  ifFalse he _ := he.inOrder_concat rfl rfl
  append hcode hmore := hcode.append hmore
  labels _ hcode := hcode

/-! ## Jumps -/

theorem EmitsExpr.jumps_eq_nil {e : Expr} {x : Operand} (h : EmitsExpr s e c code x c') :
    code.jumps = [] := by
  induction h with
  | lit | var => rfl
  | bin _ _ _ _ ihL ihR => simp [ihL, ihR, Instr.jump?]

theorem Emits.jumps_placed {ss : List Stmt} (h : Emits s ss c code c') :
    ∀ l ∈ code.jumps, l ∈ code.marks := by
  induction h with
  | nil => simp
  | assign pos name he _ ih =>
      intro l hl
      simp only [Code.jumps_append, Code.jumps_cons, he.jumps_eq_nil, Instr.jump?, Option.toList,
        List.nil_append] at hl
      simp [ih l hl]
  | loop pos he _ _ ihB ih =>
      intro l hl
      simp only [Code.jumps_append, Code.jumps_cons, he.jumps_eq_nil, Instr.jump?, Option.toList,
        List.nil_append, List.cons_append, List.mem_cons, List.mem_append] at hl
      -- out of the loop, within the body, back to the start, within the rest
      rcases hl with rfl | hl | rfl | hl
      · simp [Instr.placed?]
      · simp [ihB l hl]
      · simp [Instr.placed?]
      · simp [ih l hl]
  | branch pos he _ _ _ ihT ihF ih =>
      intro l hl
      simp only [Code.jumps_append, Code.jumps_cons, he.jumps_eq_nil, Instr.jump?, Option.toList,
        List.nil_append, List.cons_append, List.mem_cons, List.mem_append] at hl
      -- to the else part, within the first block, past the second, within it, within the rest
      rcases hl with rfl | hl | rfl | hl | hl
      · simp [Instr.placed?]
      · simp [ihT l hl]
      · simp [Instr.placed?]
      · simp [ihF l hl]
      · simp [ih l hl]

/-! ## Whole programs -/

theorem wellFormed_of_lower {o : LowerOptions} {p : Program} {lowered : Lowered}
    (h : p.lower o = .ok lowered) : lowered.code.WellFormed := by
  obtain ⟨c, hfragment⟩ := fragment_of_lower h
  obtain ⟨-, -, horder⟩ := inOrder_piecewise.of_lower (fun _ => .decls p.decls) h
  obtain ⟨hok, body, c', hemits, rfl⟩ := lower_eq_ok_iff.mp h
  have hjumps : ∀ l ∈ Code.jumps ((if o.noDecls then [] else decls p.decls) ++ body),
      l ∈ Code.marks ((if o.noDecls then [] else decls p.decls) ++ body) := by
    intro l hl
    have hnone : Code.jumps (if o.noDecls then [] else decls p.decls) = [] := by
      cases o.noDecls with
      | true => rfl
      | false => exact (parts_decls p.decls).2.2
    rw [Code.jumps_append, hnone, List.nil_append] at hl
    rw [Code.marks_append, List.mem_append]
    exact .inr (hemits.jumps_placed l hl)
  constructor
  · exact horder.known
  · intro t ht
    obtain ⟨k, -, -, hid⟩ := (hfragment.temps t ht).id
    omega
  · intro l hl
    obtain ⟨k, -, -, hid⟩ := (hfragment.marks l hl).id
    omega
  · exact hfragment.tempIds
  · exact hfragment.markIds
  · refine List.nodup_append.mpr ⟨hfragment.tempNames, hfragment.markNames, ?_⟩
    -- here the check of the options comes in: no stem makes the name of a label
    simp only [Code.tempNames, Code.markNames, List.forall_mem_map]
    exact fun t ht l hl => (hfragment.temps t ht).ne_label hok (hfragment.marks l hl)
  · exact horder.reads
  · exact fun l hl => List.mem_map_of_mem (hjumps l hl)

/-- Nothing but its options keeps a supported program from being lowered. -/
theorem check_of_lower_error {o : LowerOptions} {p : Program} {e : LowerError}
    (hp : p.isSupported = true) (h : p.lower o = .error e) : o.check = .error e := by
  cases hok : o.check with
  | error e' =>
      rw [Program.lower, hok] at h
      cases h
      rfl
  | ok u =>
      obtain ⟨lowered, hlower⟩ := exists_lower hp hok
      rw [hlower] at h
      cases h

end Lowering

/-- Lowered code is accepted. Whatever the names and literals of a supported
program and whatever the options, lowering either refuses the options or
returns code that passes the check. -/
theorem lowered_code_verifies {p : Program} (hp : p.isSupported = true)
    (settings : List Setting) :
    (∀ e, p.lower (.ofSettings settings) = .error e →
      (LowerOptions.ofSettings settings).check = .error e) ∧
    ∀ lowered, p.lower (.ofSettings settings) = .ok lowered → lowered.code.verify = .ok () :=
  ⟨fun _ => Lowering.check_of_lower_error hp, fun _ h => (Lowering.wellFormed_of_lower h).verify⟩

/-- A branch in a loop, over names that temporaries and labels could have. -/
def tangled : Program :=
  ⟨0, [⟨0, .int, ["L0", "t1"]⟩],
    [.loop 0 (.bin 0 .lt (.var 0 "L0") (.bin 0 .add (.var 0 "L2") (.lit 0 "1")))
      [.branch 0 (.bin 0 .eq (.var 0 "t1") (.var 0 "end1"))
        [.assign 0 "L0" (.bin 0 .mul (.var 0 "L0") (.bin 0 .pow (.var 0 "t1") (.lit 0 "2")))] []]]⟩

/-- Its code with the stem `L`: the names `L0` and `L2` are taken. -/
def tangledCode : Code :=
  [.decl .int "L0", .decl .int "t1",
    .mark ⟨0, "WHILE1"⟩,
    .binop ⟨0, "L1"⟩ .add (.var "L2") (.lit "1"),
    .binop ⟨1, "L3"⟩ .lt (.var "L0") (.temp ⟨0, "L1"⟩),
    .ifFalse (.temp ⟨1, "L3"⟩) ⟨1, "END1"⟩,
    .binop ⟨2, "L4"⟩ .eq (.var "t1") (.var "end1"),
    .ifFalse (.temp ⟨2, "L4"⟩) ⟨2, "ELSE1"⟩,
    .binop ⟨3, "L5"⟩ .pow (.var "t1") (.lit "2"),
    .binop ⟨4, "L6"⟩ .mul (.var "L0") (.temp ⟨3, "L5"⟩),
    .copy "L0" (.temp ⟨4, "L6"⟩),
    .goto ⟨3, "END2"⟩,
    .mark ⟨2, "ELSE1"⟩,
    .mark ⟨3, "END2"⟩,
    .goto ⟨0, "WHILE1"⟩,
    .mark ⟨1, "END1"⟩]

theorem tangled_code_verifies : tangled.isSupported = true ∧
    tangled.lower (.ofSettings [.tempStem "L", .namedLabels]) = .ok ⟨tangledCode, 5, 4⟩ ∧
    tangledCode.verify = .ok () := by
  have hlower : tangled.lower (.ofSettings [.tempStem "L", .namedLabels]) =
      .ok ⟨tangledCode, 5, 4⟩ := by decide +kernel
  have hverifies := (lowered_code_verifies (p := tangled) rfl _).2 _ hlower
  exact ⟨rfl, hlower, hverifies⟩

end ThreeAddress
