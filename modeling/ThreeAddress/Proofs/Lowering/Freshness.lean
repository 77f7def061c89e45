import ThreeAddress.Proofs.Code.Parts
import ThreeAddress.Proofs.Lowering.Emission

/-!
# Lowered code introduces everything once

A piece of lowered code is a `Fragment`: what it assigns and places was handed
out between the counters before it and the counters after it, and nothing in
it is assigned or placed twice. Fragments can be put one after the other
(`Fragment.append`). Their order does not matter (`Fragment.perm`), which is
what a loop and a branch need: their end label is handed out first and placed
last.
-/

namespace ThreeAddress.Lowering

variable {s : Scope} {c c' c₁ c₂ : Counters} {code more : Code}

/-- Code that lowering writes between two states of the counters, as far as
temporaries and labels are concerned. -/
structure Fragment (s : Scope) (c c' : Counters) (code : Code) : Prop where
  below : c.Below c'
  temps : ∀ t ∈ code.temps, s.MakesTemp c c' t
  marks : ∀ l ∈ code.marks, s.MakesLabel c c' l
  tempIds : (code.temps.map Temp.id).Nodup
  tempNames : code.tempNames.Nodup
  markIds : (code.marks.map Label.id).Nodup
  markNames : code.markNames.Nodup

namespace Fragment

/-- An instruction that introduces nothing. -/
theorem plain {x : Instr} (ht : x.assigned? = none) (hm : x.placed? = none) (c : Counters) :
    Fragment s c c [x] := by
  refine ⟨.refl c, ?_, ?_, ?_, ?_, ?_, ?_⟩ <;> simp [Code.tempNames, Code.markNames, ht, hm]

theorem nil (c : Counters) : Fragment s c c [] := by
  refine ⟨.refl c, ?_, ?_, ?_, ?_, ?_, ?_⟩ <;> simp [Code.tempNames, Code.markNames]

theorem binop (op : Op) (x y : Operand) (c : Counters) :
    Fragment s c (s.temp c).2 [.binop (s.temp c).1 op x y] := by
  refine ⟨below_temp s c, ?_, ?_, ?_, ?_, ?_, ?_⟩ <;>
    simp [Code.tempNames, Code.markNames, Instr.assigned?, Instr.placed?, s.makesTemp_temp c]

theorem mark (purpose : Purpose) (c : Counters) :
    Fragment s c (c.withLabel purpose) [.mark (s.label purpose c).1] := by
  refine ⟨below_withLabel c purpose, ?_, ?_, ?_, ?_, ?_, ?_⟩ <;>
    simp [Code.tempNames, Code.markNames, Instr.assigned?, Instr.placed?,
      s.makesLabel_label purpose c]

theorem append (h : Fragment s c c₁ code) (h' : Fragment s c₁ c₂ more) :
    Fragment s c c₂ (code ++ more) := by
  refine ⟨h.below.trans h'.below, ?_, ?_, ?_, ?_, ?_, ?_⟩
  · intro t ht
    rw [Code.temps_append] at ht
    rcases List.mem_append.mp ht with ht | ht
    · exact (h.temps t ht).widen (.refl c) h'.below
    · exact (h'.temps t ht).widen h.below (.refl c₂)
  · intro l hl
    rw [Code.marks_append] at hl
    rcases List.mem_append.mp hl with hl | hl
    · exact (h.marks l hl).widen (.refl c) h'.below
    · exact (h'.marks l hl).widen h.below (.refl c₂)
  · rw [Code.temps_append, List.map_append]
    refine List.nodup_append.mpr ⟨h.tempIds, h'.tempIds, ?_⟩
    simp only [List.forall_mem_map]
    exact fun t ht t' ht' => ((h.temps t ht).ne (h'.temps t' ht')).1
  · rw [Code.tempNames_append]
    refine List.nodup_append.mpr ⟨h.tempNames, h'.tempNames, ?_⟩
    simp only [Code.tempNames, List.forall_mem_map]
    exact fun t ht t' ht' => ((h.temps t ht).ne (h'.temps t' ht')).2
  · rw [Code.marks_append, List.map_append]
    refine List.nodup_append.mpr ⟨h.markIds, h'.markIds, ?_⟩
    simp only [List.forall_mem_map]
    exact fun l hl l' hl' => ((h.marks l hl).ne (h'.marks l' hl')).1
  · rw [Code.markNames_append]
    refine List.nodup_append.mpr ⟨h.markNames, h'.markNames, ?_⟩
    simp only [Code.markNames, List.forall_mem_map]
    exact fun l hl l' hl' => ((h.marks l hl).ne (h'.marks l' hl')).2

/-- The order of the instructions does not matter. -/
theorem perm (h : Fragment s c c' code) (hp : code.Perm more) : Fragment s c c' more := by
  have temps : code.temps.Perm more.temps := hp.filterMap _
  have marks : code.marks.Perm more.marks := hp.filterMap _
  refine ⟨h.below, fun t ht => h.temps t (temps.mem_iff.mpr ht),
    fun l hl => h.marks l (marks.mem_iff.mpr hl), ?_, ?_, ?_, ?_⟩
  · exact (temps.map _).nodup_iff.mp h.tempIds
  · exact (temps.map _).nodup_iff.mp h.tempNames
  · exact (marks.map _).nodup_iff.mp h.markIds
  · exact (marks.map _).nodup_iff.mp h.markNames

end Fragment

theorem EmitsExpr.fragment {e : Expr} {x : Operand} (h : EmitsExpr s e c code x c') :
    Fragment s c c' code := by
  induction h with
  | lit => exact .nil _
  | var => exact .nil _
  | bin pos _ _ _ ihL ihR => exact (ihL.append ihR).append (.binop _ _ _ _)

/-- Both labels of a loop or a branch, the end label placed where it was
handed out. -/
theorem Fragment.labels (purpose : Purpose) (c : Counters) :
    Fragment s c (c.withLabels purpose)
      [.mark (s.opening purpose c), .mark (s.closing purpose c)] :=
  (Fragment.mark purpose c).append (Fragment.mark .finish _)

theorem Emits.fragment {ss : List Stmt} (h : Emits s ss c code c') : Fragment s c c' code := by
  induction h with
  | nil => exact .nil _
  | assign pos name he _ ih =>
      simpa using (he.fragment.append (.plain rfl rfl _)).append ih
  | @loop pos _ _ _ c _ _ _ _ _ _ x he _ _ ihB ih =>
      have whole := (Fragment.labels .loop c).append he.fragment
        |>.append (.plain (x := .ifFalse x (s.closing .loop c)) rfl rfl _)
        |>.append ihB
        |>.append (.plain (x := .goto (s.opening .loop c)) rfl rfl _)
        |>.append ih
      refine whole.perm (List.perm_iff_count.mpr fun y => ?_)
      simp only [List.count_append, List.count_cons, List.count_nil]
      omega
  | @branch pos _ _ _ _ c _ _ _ _ _ _ _ _ x he _ _ _ ihT ihF ih =>
      have whole := (Fragment.labels .otherwise c).append he.fragment
        |>.append (.plain (x := .ifFalse x (s.opening .otherwise c)) rfl rfl _)
        |>.append ihT
        |>.append (.plain (x := .goto (s.closing .otherwise c)) rfl rfl _)
        |>.append ihF
        |>.append ih
      refine whole.perm (List.perm_iff_count.mpr fun y => ?_)
      simp only [List.count_append, List.count_cons, List.count_nil]
      omega

/-! ## Declarations

Statements declare nothing, so all declarations of lowered code stand in front. -/

theorem EmitsExpr.declared_eq_nil {e : Expr} {x : Operand} (h : EmitsExpr s e c code x c') :
    code.declared = [] := by
  induction h with
  | lit | var => rfl
  | bin _ _ _ _ ihL ihR => simp [ihL, ihR, Instr.declared?]

theorem Emits.declared_eq_nil {ss : List Stmt} (h : Emits s ss c code c') : code.declared = [] := by
  induction h with
  | nil => rfl
  | assign _ _ he _ ih => simp [he.declared_eq_nil, ih, Instr.declared?]
  | loop _ he _ _ ihB ih => simp [he.declared_eq_nil, ihB, ih, Instr.declared?]
  | branch _ he _ _ _ ihT ihF ih => simp [he.declared_eq_nil, ihT, ihF, ih, Instr.declared?]

/-! ## Whole programs -/

/-- Declarations neither introduce nor jump. -/
theorem parts_decls (ds : List Decl) :
    Code.temps (decls ds) = [] ∧ Code.marks (decls ds) = [] ∧ Code.jumps (decls ds) = [] := by
  refine ⟨?_, ?_, ?_⟩ <;>
  · refine List.filterMap_eq_nil_iff.mpr fun x hx => ?_
    obtain ⟨ty, name, rfl⟩ := eq_decl_of_mem_decls hx
    rfl

theorem Fragment.decls (ds : List Decl) (c : Counters) : Fragment s c c (decls ds) := by
  obtain ⟨temps, marks, _⟩ := parts_decls ds
  refine ⟨.refl c, ?_, ?_, ?_, ?_, ?_, ?_⟩ <;>
    simp [Code.tempNames, Code.markNames, temps, marks]

theorem fragment_of_lower {o : LowerOptions} {p : Program} {lowered : Lowered}
    (h : p.lower o = .ok lowered) :
    ∃ c, Fragment (o.scope p) {} c lowered.code := by
  obtain ⟨_, body, c, hemit, rfl⟩ := lower_eq_ok_iff.mp h
  refine ⟨c, ?_⟩
  cases o.noDecls with
  | true => exact hemit.fragment
  | false => exact (Fragment.decls p.decls {}).append hemit.fragment

end ThreeAddress.Lowering
