import Mathlib.Data.List.TakeWhile
import ThreeAddress.Proofs.Lowering.Freshness

/-!
# What options decide

Options decide how temporaries and labels are called and whether declarations
are kept. Nothing else in the code depends on them.

Two runs over one tree under different options go through different states:
numbers that make a name of the program are skipped for one stem and not for
another, and named labels are counted apart. What the two have in common at
every node is how many temporaries and how many labels they have handed out
(`Counters.InStep`), and that alone decides the code up to names.
-/

namespace ThreeAddress

/-! ## Code without names and declarations -/

def Temp.nameless (t : Temp) : Temp := { t with name := "" }

def Label.nameless (l : Label) : Label := { l with name := "" }

/-- The operand with the name of a temporary taken away. Names and literals of
the program stay. -/
def Operand.nameless : Operand → Operand
  | .temp t => .temp t.nameless
  | .var name => .var name
  | .lit text => .lit text
  | .missing => .missing

/-- The instruction with the names of temporaries and labels taken away. -/
def Instr.nameless : Instr → Instr
  | .decl ty name => .decl ty name
  | .copy dst src => .copy dst src.nameless
  | .binop dst op l r => .binop dst.nameless op l.nameless r.nameless
  | .mark l => .mark l.nameless
  | .goto l => .goto l.nameless
  | .ifFalse cond l => .ifFalse cond.nameless l.nameless
  | .missing => .missing

def Instr.isDecl (x : Instr) : Bool := x.declared?.isSome

namespace Code

/-- The declarations the code starts with. -/
def preamble (code : Code) : Code := code.takeWhile Instr.isDecl

/-- What is left of the code without its declarations and without the names of
temporaries and labels. -/
def skeleton (code : Code) : Code := (code.filter fun x => !x.isDecl).map Instr.nameless

theorem isDecl_of_declared_eq_nil {code : Code} (h : code.declared = []) :
    ∀ x ∈ code, x.isDecl = false := by
  intro x hx
  rw [Instr.isDecl, List.filterMap_eq_nil_iff.mp h x hx, Option.isSome_none]

variable {head body : Code}

theorem preamble_append (hhead : ∀ x ∈ head, x.isDecl = true) (hbody : body.declared = []) :
    preamble (head ++ body) = head := by
  have hnone : body.takeWhile Instr.isDecl = [] := by
    refine List.takeWhile_eq_nil_iff.mpr fun hpos => ?_
    rw [isDecl_of_declared_eq_nil hbody _ (body.get_mem ⟨0, hpos⟩)]
    exact Bool.false_ne_true
  rw [preamble, List.takeWhile_append_of_pos hhead, hnone, List.append_nil]

theorem skeleton_append (hhead : ∀ x ∈ head, x.isDecl = true) (hbody : body.declared = []) :
    skeleton (head ++ body) = body.map Instr.nameless := by
  have hnone : (head.filter fun x => !x.isDecl) = [] := by
    refine List.filter_eq_nil_iff.mpr fun x hx => ?_
    simp [hhead x hx]
  have hall : (body.filter fun x => !x.isDecl) = body := by
    refine List.filter_eq_self.mpr fun x hx => ?_
    simp [isDecl_of_declared_eq_nil hbody x hx]
  rw [skeleton, List.filter_append, hnone, hall, List.nil_append]

end Code

namespace Lowering

/-! ## Two runs side by side -/

/-- As many temporaries and as many labels were handed out in both. -/
structure Counters.InStep (c d : Counters) : Prop where
  temps : c.temps = d.temps
  labels : c.labels = d.labels

variable {s s' : Scope} {c c' d d' : Counters} {code code' : Code}

theorem Counters.InStep.withLabels (h : c.InStep d) (purpose : Purpose) :
    (c.withLabels purpose).InStep (d.withLabels purpose) :=
  ⟨by simp [h.temps], by simp [h.labels]⟩

theorem Counters.InStep.temp (h : c.InStep d) : (s.temp c).2.InStep (s'.temp d).2 :=
  ⟨congrArg (· + 1) h.temps, h.labels⟩

theorem Counters.InStep.nameless_temp (h : c.InStep d) (s s' : Scope) :
    (s.temp c).1.nameless = (s'.temp d).1.nameless := by
  simp [Temp.nameless, Scope.temp, h.temps]

theorem Counters.InStep.nameless_opening (h : c.InStep d) (s s' : Scope) (purpose : Purpose) :
    (s.opening purpose c).nameless = (s'.opening purpose d).nameless := by
  simp [Label.nameless, h.labels]

theorem Counters.InStep.nameless_closing (h : c.InStep d) (s s' : Scope) (purpose : Purpose) :
    (s.closing purpose c).nameless = (s'.closing purpose d).nameless := by
  simp [Label.nameless, h.labels]

/-- Expressions keep two runs in step. -/
theorem EmitsExpr.inStep {e : Expr} {x x' : Operand} (h : EmitsExpr s e c code x c')
    (h' : EmitsExpr s' e d code' x' d') (hcd : c.InStep d) :
    code.map Instr.nameless = code'.map Instr.nameless ∧ x.nameless = x'.nameless ∧
      c'.InStep d' := by
  induction h generalizing d code' x' d' with
  | lit pos text c =>
      cases h'
      exact ⟨rfl, rfl, hcd⟩
  | var pos name c =>
      cases h'
      exact ⟨rfl, rfl, hcd⟩
  | bin pos _ _ _ ihL ihR =>
      cases h' with
      | bin _ _ hl' hr' =>
      obtain ⟨hcodeL, hx, hcd₁⟩ := ihL hl' hcd
      obtain ⟨hcodeR, hy, hcd₂⟩ := ihR hr' hcd₁
      have ht := hcd₂.nameless_temp s s'
      refine ⟨?_, ?_, hcd₂.temp⟩
      · simp only [List.map_append, List.map_cons, List.map_nil, Instr.nameless, hcodeL, hcodeR, hx,
          hy, ht]
      · rw [Operand.nameless, Operand.nameless, ht]

/-- Blocks keep two runs in step. -/
theorem Emits.inStep {ss : List Stmt} (h : Emits s ss c code c') (h' : Emits s' ss d code' d')
    (hcd : c.InStep d) :
    code.map Instr.nameless = code'.map Instr.nameless ∧ c'.InStep d' := by
  induction h generalizing d code' d' with
  | nil c =>
      cases h'
      exact ⟨rfl, hcd⟩
  | assign pos name he _ ih =>
      cases h' with
      | assign _ _ he' hrest' =>
      obtain ⟨hcode, hx, hcd₁⟩ := he.inStep he' hcd
      obtain ⟨hmore, hcd₂⟩ := ih hrest' hcd₁
      refine ⟨?_, hcd₂⟩
      simp only [List.map_append, List.map_cons, Instr.nameless, hcode, hx, hmore]
  | loop pos he _ _ ihB ih =>
      cases h' with
      | loop _ he' hbody' hrest' =>
      obtain ⟨htest, hx, hcd₁⟩ := he.inStep he' (hcd.withLabels .loop)
      obtain ⟨hinner, hcd₂⟩ := ihB hbody' hcd₁
      obtain ⟨hmore, hcd₃⟩ := ih hrest' hcd₂
      have hstart := hcd.nameless_opening s s' .loop
      have hfinish := hcd.nameless_closing s s' .loop
      refine ⟨?_, hcd₃⟩
      simp only [List.map_append, List.map_cons, Instr.nameless, htest, hx, hinner, hmore, hstart,
        hfinish]
  | branch pos he _ _ _ ihT ihF ih =>
      cases h' with
      | branch _ he' hyes' hno' hrest' =>
      obtain ⟨htest, hx, hcd₁⟩ := he.inStep he' (hcd.withLabels .otherwise)
      obtain ⟨hyes, hcd₂⟩ := ihT hyes' hcd₁
      obtain ⟨hno, hcd₃⟩ := ihF hno' hcd₂
      obtain ⟨hmore, hcd₄⟩ := ih hrest' hcd₃
      have helse := hcd.nameless_opening s s' .otherwise
      have hfinish := hcd.nameless_closing s s' .otherwise
      refine ⟨?_, hcd₄⟩
      simp only [List.map_append, List.map_cons, Instr.nameless, htest, hx, hyes, hno, hmore, helse,
        hfinish]

/-! ## Whole programs -/

theorem isDecl_of_mem_decls {ds : List Decl} : ∀ x ∈ decls ds, x.isDecl = true := by
  intro x hx
  obtain ⟨ty, name, rfl⟩ := eq_decl_of_mem_decls hx
  rfl

/-- Lowered code is its preamble, which the options keep or leave out whole, and
the code of the statements. -/
theorem parts_of_lower {o : LowerOptions} {p : Program} {lowered : Lowered}
    (h : p.lower o = .ok lowered) : ∃ body c, Emits (o.scope p) p.stmts {} body c ∧
      lowered.code.preamble = (if o.noDecls then [] else decls p.decls) ∧
      lowered.code.skeleton = body.map Instr.nameless := by
  obtain ⟨-, body, c, hemits, rfl⟩ := lower_eq_ok_iff.mp h
  have hhead : ∀ x ∈ (if o.noDecls then [] else decls p.decls), x.isDecl = true := by
    cases o.noDecls with
    | true => simp
    | false => exact isDecl_of_mem_decls
  exact ⟨body, c, hemits, Code.preamble_append hhead hemits.declared_eq_nil,
    Code.skeleton_append hhead hemits.declared_eq_nil⟩

end Lowering

/-- Options change names and declarations only. If a program is lowered under two
lists of settings, the codes have the same skeleton, and the same preamble unless
one of the lists leaves declarations out. -/
theorem options_keep_skeleton {p : Program} {settings settings' : List Setting}
    {lowered lowered' : Lowered} (h : p.lower (.ofSettings settings) = .ok lowered)
    (h' : p.lower (.ofSettings settings') = .ok lowered') :
    lowered.code.skeleton = lowered'.code.skeleton ∧
      ((LowerOptions.ofSettings settings).noDecls = false →
        (LowerOptions.ofSettings settings').noDecls = false →
        lowered.code.preamble = lowered'.code.preamble) := by
  obtain ⟨body, c, hemits, hpreamble, hskeleton⟩ := Lowering.parts_of_lower h
  obtain ⟨body', c', hemits', hpreamble', hskeleton'⟩ := Lowering.parts_of_lower h'
  refine ⟨?_, fun hkept hkept' => ?_⟩
  · obtain ⟨hbody, -⟩ := hemits.inStep hemits' ⟨rfl, rfl⟩
    rw [hskeleton, hskeleton', hbody]
  · rw [hpreamble, hpreamble', hkept, hkept']

/-- A branch in a loop, with a loop in its else part. Two of the names are such
that temporaries would have them. -/
def crowded : Program :=
  ⟨0, [⟨0, .int, ["t1", "i"]⟩],
    [.loop 0 (.bin 0 .lt (.var 0 "i") (.var 0 "t1"))
      [.branch 0 (.bin 0 .sub (.var 0 "i") (.lit 0 "1"))
        [.assign 0 "i" (.bin 0 .mul (.bin 0 .add (.var 0 "i") (.lit 0 "1"))
          (.bin 0 .sub (.var 0 "t3") (.lit 0 "2")))]
        [.loop 0 (.var 0 "i") []]]]⟩

def crowdedCode : Code :=
  [.decl .int "t1", .decl .int "i", .mark ⟨0, "L0"⟩,
    .binop ⟨0, "t0"⟩ .lt (.var "i") (.var "t1"), .ifFalse (.temp ⟨0, "t0"⟩) ⟨1, "L1"⟩,
    .binop ⟨1, "t2"⟩ .sub (.var "i") (.lit "1"), .ifFalse (.temp ⟨1, "t2"⟩) ⟨2, "L2"⟩,
    .binop ⟨2, "t4"⟩ .add (.var "i") (.lit "1"), .binop ⟨3, "t5"⟩ .sub (.var "t3") (.lit "2"),
    .binop ⟨4, "t6"⟩ .mul (.temp ⟨2, "t4"⟩) (.temp ⟨3, "t5"⟩), .copy "i" (.temp ⟨4, "t6"⟩),
    .goto ⟨3, "L3"⟩, .mark ⟨2, "L2"⟩,
    .mark ⟨4, "L4"⟩, .ifFalse (.var "i") ⟨5, "L5"⟩, .goto ⟨4, "L4"⟩, .mark ⟨5, "L5"⟩,
    .mark ⟨3, "L3"⟩, .goto ⟨0, "L0"⟩, .mark ⟨1, "L1"⟩]

theorem lower_crowded : crowded.lower (.ofSettings []) = .ok ⟨crowdedCode, 5, 6⟩ := by
  decide +kernel

theorem crowded_options_keep_skeleton :
    ∃ lowered, crowded.lower (.ofSettings [.namedLabels, .tempStem "i"]) = .ok lowered ∧
      lowered ≠ ⟨crowdedCode, 5, 6⟩ ∧ crowdedCode.skeleton = lowered.code.skeleton ∧
      crowdedCode.preamble = lowered.code.preamble := by
  obtain ⟨lowered, h⟩ :
      ∃ lowered, crowded.lower (.ofSettings [.namedLabels, .tempStem "i"]) = .ok lowered :=
    Lowering.exists_lower rfl rfl
  have hother : crowded.lower (.ofSettings [.namedLabels, .tempStem "i"]) ≠
      .ok ⟨crowdedCode, 5, 6⟩ := by decide +kernel
  obtain ⟨hskeleton, hpreamble⟩ := options_keep_skeleton lower_crowded h
  refine ⟨lowered, h, ?_, hskeleton, hpreamble rfl rfl⟩
  rintro rfl
  exact hother h

end ThreeAddress
