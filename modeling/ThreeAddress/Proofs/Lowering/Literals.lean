import ThreeAddress.Proofs.Compile.Formatting
import ThreeAddress.Proofs.Lowering.Numbering
import ThreeAddress.Proofs.Lowering.Raising

/-!
# Temporaries and literals

Lowering keeps the names of temporaries apart from the names of the program. A
stem that begins like a number can still make the text of a literal: with the stem
`1` the first temporary is called `10`. Which stems can is told here
(`OpensNumeral`): for all others a text in the listing belongs to temporaries or to
operands of the program and never to both, and for each of these there is a program
in which it belongs to both.
-/

namespace ThreeAddress

/-! ## Operands of programs and of code -/

/-- A leaf of the expression is the operand. -/
inductive Expr.Leaf : Operand → Expr → Prop
  | var (pos : Int) (name : String) : Leaf (.var name) (.var pos name)
  | lit (pos : Int) (text : String) : Leaf (.lit text) (.lit pos text)
  | left {y : Operand} {pos : Int} {op : Op} {l r : Expr} : Leaf y l → Leaf y (.bin pos op l r)
  | right {y : Operand} {pos : Int} {op : Op} {l r : Expr} : Leaf y r → Leaf y (.bin pos op l r)

/-- The statement itself, not one in its blocks, assigns to the operand or has it
in its expression. -/
inductive Stmt.Shows : Operand → Stmt → Prop
  | target (pos : Int) (name : String) (value : Expr) : Shows (.var name) (.assign pos name value)
  | leaf {y : Operand} {x : Stmt} {e : Expr} : x.expr? = some e → e.Leaf y → Shows y x

/-- The literal stands somewhere in the program. -/
def Program.HasLiteral (p : Program) (text : String) : Prop :=
  ∃ x : Stmt, x.Occurs p.stmts ∧ x.Shows (.lit text)

/-- The operands in the line of an instruction, with what it assigns or declares. -/
def Instr.shown : Instr → List Operand
  | .decl _ name => [.var name]
  | .copy dst src => [.var dst, src]
  | .binop dst _ l r => [.temp dst, l, r]
  | .ifFalse cond _ => [cond]
  | _ => []

def Code.shown (code : Code) : List Operand := code.flatMap Instr.shown

/-- No text in the listing is that of a temporary and of something else as well. -/
def Code.TellsTemps (code : Code) : Prop :=
  ∀ x ∈ code.shown, ∀ y ∈ code.shown, x.text = y.text → x.temp?.isSome = y.temp?.isSome

@[simp] theorem Code.shown_nil : Code.shown [] = [] := rfl

@[simp] theorem Code.shown_cons (x : Instr) (code : Code) :
    Code.shown (x :: code) = x.shown ++ code.shown := List.flatMap_cons

@[simp] theorem Code.shown_append (code more : Code) :
    (code ++ more).shown = code.shown ++ more.shown := List.flatMap_append

/-! ## What a listing shows -/

theorem Instr.assigned_or_read {x : Instr} {t : Temp} (h : .temp t ∈ x.shown) :
    x.assigned? = some t ∨ .temp t ∈ x.reads := by
  cases x with
  | copy dst src =>
      rcases List.mem_cons.mp h with h | h
      · cases h
      · exact .inr h
  | binop dst op l r =>
      rcases List.mem_cons.mp h with h | h
      · cases h
        exact .inl rfl
      · exact .inr h
  | ifFalse cond l => exact .inr h
  | decl ty name => cases List.mem_singleton.mp h
  | mark | goto | missing => cases h

theorem Code.mem_temps_or_tempsRead {code : Code} {t : Temp} (h : .temp t ∈ code.shown) :
    t ∈ code.temps ∨ t ∈ code.tempsRead := by
  obtain ⟨x, hx, hshown⟩ := List.mem_flatMap.mp h
  rcases Instr.assigned_or_read hshown with hassigned | hread
  · exact .inl (List.mem_filterMap.mpr ⟨x, hx, hassigned⟩)
  · exact .inr (List.mem_flatMap.mpr ⟨x, hx, Instr.mem_tempsRead hread⟩)

theorem Expr.Leaf.reads {e : Expr} {name : String} (h : e.Leaf (.var name)) : e.Reads name := by
  induction e with
  | bin pos op l r ihL ihR =>
      cases h with
      | left h => exact .left (ihL h)
      | right h => exact .right (ihR h)
  | var pos n =>
      cases h
      exact .var pos
  | lit | missing => cases h

theorem Stmt.Shows.touches {x : Stmt} {name : String} (h : x.Shows (.var name)) :
    x.Touches name := by
  cases h with
  | target pos name value => exact .assigned pos value
  | leaf he hleaf => exact .read he hleaf.reads

theorem Expr.not_leaf_missing {e : Expr} : ¬ e.Leaf .missing := by
  intro h
  induction e with
  | bin pos op l r ihL ihR =>
      cases h with
      | left h => exact ihL h
      | right h => exact ihR h
  | var | lit | missing => cases h

/-- The operand is a temporary or stands in the block. -/
def Stmt.Supplies (ss : List Stmt) (y : Operand) : Prop :=
  y.temp?.isSome = true ∨ ∃ x : Stmt, x.Occurs ss ∧ x.Shows y

theorem Stmt.Supplies.imp {ss around : List Stmt} {y : Operand} (h : Supplies ss y)
    (haround : ∀ {x : Stmt}, x.Occurs ss → x.Occurs around) : Supplies around y := by
  rcases h with htemp | ⟨x, hx, hshows⟩
  · exact .inl htemp
  · exact .inr ⟨x, haround hx, hshows⟩

theorem Stmt.supplies_of_leaf {ss : List Stmt} {x : Stmt} {e : Expr} {y : Operand}
    (hx : x.Occurs ss) (he : x.expr? = some e) (h : y.temp?.isSome = true ∨ e.Leaf y) :
    Supplies ss y := by
  rcases h with htemp | hleaf
  · exact .inl htemp
  · exact .inr ⟨x, hx, .leaf he hleaf⟩

namespace Lowering

variable {s : Scope} {c c' : Counters} {code : Code}

theorem EmitsExpr.leaves {e : Expr} {x : Operand} (h : EmitsExpr s e c code x c') :
    ∀ y ∈ x :: code.shown, y.temp?.isSome = true ∨ e.Leaf y := by
  induction h with
  | lit pos text c =>
      intro y hy
      cases List.mem_singleton.mp hy
      exact .inr (.lit pos text)
  | var pos name c =>
      intro y hy
      cases List.mem_singleton.mp hy
      exact .inr (.var pos name)
  | bin pos _ _ _ ihL ihR =>
      intro y hy
      simp only [Code.shown_append, Code.shown_cons, Code.shown_nil, Instr.shown, List.append_nil,
        List.mem_cons, List.mem_append, List.not_mem_nil, or_false] at hy
      rcases hy with rfl | (hl | hr) | rfl | rfl | rfl
      · exact .inl rfl
      · exact (ihL y (List.mem_cons_of_mem _ hl)).imp_right .left
      · exact (ihR y (List.mem_cons_of_mem _ hr)).imp_right .right
      · exact .inl rfl
      · exact (ihL _ List.mem_cons_self).imp_right .left
      · exact (ihR _ List.mem_cons_self).imp_right .right

theorem Emits.supplies {ss : List Stmt} (h : Emits s ss c code c') :
    ∀ y ∈ code.shown, Stmt.Supplies ss y := by
  induction h with
  | nil c => simp
  | @assign pos name value rest _ _ _ _ _ _ he _ ih =>
      have hvalue := fun y hy => Stmt.supplies_of_leaf (.here rest) (x := .assign pos name value) rfl
        (he.leaves y hy)
      intro y hy
      simp only [Code.shown_append, Code.shown_cons, Instr.shown, List.cons_append, List.nil_append,
        List.mem_cons, List.mem_append] at hy
      rcases hy with hy | rfl | rfl | hy
      · exact hvalue y (List.mem_cons_of_mem _ hy)
      · exact .inr ⟨_, .here rest, .target pos name value⟩
      · exact hvalue _ List.mem_cons_self
      · exact (ih y hy).imp .later
  | @loop pos cond body rest _ _ _ _ _ _ _ _ he _ _ ihB ih =>
      have hcond := fun y hy => Stmt.supplies_of_leaf (.here rest) (x := .loop pos cond body) rfl
        (he.leaves y hy)
      intro y hy
      simp only [Code.shown_append, Code.shown_cons, Instr.shown, List.cons_append, List.nil_append,
        List.mem_cons, List.mem_append] at hy
      rcases hy with hy | rfl | hy | hy
      · exact hcond y (List.mem_cons_of_mem _ hy)
      · exact hcond _ List.mem_cons_self
      · exact (ihB y hy).imp .body
      · exact (ih y hy).imp .later
  | @branch pos cond onTrue onFalse rest _ _ _ _ _ _ _ _ _ _ he _ _ _ ihT ihF ih =>
      have hcond := fun y hy => Stmt.supplies_of_leaf (.here rest)
        (x := .branch pos cond onTrue onFalse) rfl (he.leaves y hy)
      intro y hy
      simp only [Code.shown_append, Code.shown_cons, Instr.shown, List.cons_append, List.nil_append,
        List.mem_cons, List.mem_append] at hy
      rcases hy with hy | rfl | hy | hy | hy
      · exact hcond y (List.mem_cons_of_mem _ hy)
      · exact hcond _ List.mem_cons_self
      · exact (ihT y hy).imp .onTrue
      · exact (ihF y hy).imp .onFalse
      · exact (ih y hy).imp .later

theorem mem_shown_decls {ds : List Decl} {y : Operand} (h : y ∈ Code.shown (decls ds)) :
    ∃ d ∈ ds, ∃ name ∈ d.names, y = .var name := by
  obtain ⟨x, hx, hy⟩ := List.mem_flatMap.mp h
  obtain ⟨d, hd, hx⟩ := List.mem_flatMap.mp hx
  obtain ⟨name, hname, rfl⟩ := List.mem_map.mp hx
  exact ⟨d, hd, name, hname, List.mem_singleton.mp hy⟩

variable {o : LowerOptions} {p : Program} {lowered : Lowered}

theorem supplies_of_lower (h : p.lower o = .ok lowered) {y : Operand}
    (hy : y ∈ lowered.code.shown) :
    (∃ d ∈ p.decls, ∃ name ∈ d.names, y = .var name) ∨ Stmt.Supplies p.stmts y := by
  obtain ⟨-, body, c, hemits, rfl⟩ := lower_eq_ok_iff.mp h
  rw [Code.shown_append] at hy
  rcases List.mem_append.mp hy with hy | hy
  · cases hdecls : o.noDecls with
    | true => simp [hdecls] at hy
    | false =>
        rw [hdecls] at hy
        exact .inl (mem_shown_decls hy)
  · exact .inr (hemits.supplies y hy)

/-- A listing shows temporaries that the code assigns, and operands of the program. -/
theorem shown_of_lower (h : p.lower o = .ok lowered) {y : Operand}
    (hy : y ∈ lowered.code.shown) :
    (∃ t ∈ lowered.code.temps, y = .temp t) ∨ (∃ name, y = .var name ∧ p.Mentions name) ∨
      ∃ text, y = .lit text ∧ p.HasLiteral text := by
  have hsource := supplies_of_lower h hy
  cases y with
  | temp t =>
      rcases Code.mem_temps_or_tempsRead hy with ht | ht
      · exact .inl ⟨t, ht, rfl⟩
      · exact .inl ⟨t, tempsRead_of_lower h ht, rfl⟩
  | var name =>
      refine .inr (.inl ⟨name, rfl, ?_⟩)
      rcases hsource with ⟨d, hd, _, hname, ⟨⟩⟩ | hnone | ⟨x, hx, hshows⟩
      · exact .inl ⟨d, hd, hname⟩
      · cases hnone
      · exact .inr ⟨x, hx, hshows.touches⟩
  | lit text =>
      refine .inr (.inr ⟨text, rfl, ?_⟩)
      rcases hsource with ⟨_, _, _, _, ⟨⟩⟩ | hnone | hliteral
      · cases hnone
      · exact hliteral
  | missing =>
      rcases hsource with ⟨_, _, _, _, ⟨⟩⟩ | hnone | ⟨x, _, hshows⟩
      · cases hnone
      · cases hshows with
        | leaf _ hleaf => exact absurd hleaf Expr.not_leaf_missing

end Lowering

/-! ## Stems that begin numbers -/

/-- The stem is the beginning of a numeral that goes on with digits: digits, or
digits, a point and maybe digits. -/
def OpensNumeral (stem : String) : Prop :=
  IsDigits stem.toList ∨ ∃ whole digits, IsDigits whole ∧ digits.all Char.isDigit = true ∧
    stem.toList = whole ++ '.' :: digits

theorem isDigits_number (n : Nat) : IsDigits (toString n).toList := by
  refine ⟨?_, List.all_eq_true.mpr fun ch => isDigit_of_mem_number⟩
  rw [Nat.toString_eq_repr, Nat.toList_repr]
  exact Nat.toDigits_ne_nil

theorem IsDigits.append {cs ds : List Char} (h : IsDigits cs) (hds : ds.all Char.isDigit = true) :
    IsDigits (cs ++ ds) :=
  ⟨by simp [h.1], by rw [List.all_append, h.2, hds]; rfl⟩

theorem point_not_mem {ds : List Char} (h : ds.all Char.isDigit = true) : '.' ∉ ds := by
  intro hmem
  exact absurd (List.all_eq_true.mp h '.' hmem) (by decide)

/-- A stem and a number make a numeral if the stem begins one. -/
theorem isNumeral_append_number {stem : String} (hstem : stem ≠ "") (n : Nat) :
    IsNumeral (stem ++ toString n) ↔ OpensNumeral stem := by
  obtain ⟨hne, hall⟩ := isDigits_number n
  rw [IsNumeral, String.toList_append]
  generalize (toString n).toList = number at hne hall ⊢
  constructor
  · rintro (⟨-, hdigits⟩ | ⟨whole, fraction, hwhole, hfraction, hsplit⟩)
    · rw [List.all_append, Bool.and_eq_true] at hdigits
      exact .inl ⟨by simpa using hstem, hdigits.1⟩
    · -- the point is none of the digits of the number, so it stands in the stem
      rcases List.append_eq_append_iff.mp hsplit with ⟨more, -, hnumber⟩ | ⟨rest, hrest, htail⟩
      · exact absurd (by simp [hnumber]) (point_not_mem hall)
      · cases rest with
        | nil =>
            rw [List.nil_append] at htail
            exact absurd (htail ▸ List.mem_cons_self) (point_not_mem hall)
        | cons point digits =>
            rw [List.cons_append] at htail
            obtain ⟨rfl, rfl⟩ := List.cons.inj htail
            have hdigits := hfraction.2
            rw [List.all_append, Bool.and_eq_true] at hdigits
            exact .inr ⟨whole, digits, hwhole, hdigits.1, hrest⟩
  · rintro (hdigits | ⟨whole, digits, hwhole, hdigits, hsplit⟩)
    · exact .inl (hdigits.append hall)
    · refine .inr ⟨whole, digits ++ number, hwhole, ⟨by simp [hne], ?_⟩, ?_⟩
      · rw [List.all_append, hdigits, hall]
        rfl
      · rw [hsplit, List.append_assoc, List.cons_append]

theorem IsDigits.exists_head {cs : List Char} (h : IsDigits cs) :
    ∃ d ds, cs = d :: ds ∧ d.isDigit = true := by
  obtain ⟨hne, hall⟩ := h
  obtain ⟨d, ds, rfl⟩ := List.exists_cons_of_ne_nil hne
  exact ⟨d, ds, rfl, List.all_eq_true.mp hall d List.mem_cons_self⟩

theorem OpensNumeral.exists_head {stem : String} (h : OpensNumeral stem) :
    ∃ d ds, stem.toList = d :: ds ∧ d.isDigit = true := by
  rcases h with hdigits | ⟨whole, digits, hwhole, -, hsplit⟩
  · exact hdigits.exists_head
  · obtain ⟨d, ds, rfl, hd⟩ := hwhole.exists_head
    exact ⟨d, ds ++ '.' :: digits, hsplit, hd⟩

theorem labelWords_begin (named : Bool) :
    ((labelWords named).all fun word => word.toList.head?.any (!·.isDigit)) = true := by
  cases named <;> decide

/-- A stem that begins a numeral passes the check. -/
theorem OpensNumeral.check {o : LowerOptions} (h : OpensNumeral o.tempStem) :
    o.check = .ok () := by
  obtain ⟨d, ds, hstem, hd⟩ := h.exists_head
  refine LowerOptions.check_eq_ok_iff.mpr ⟨fun hempty => by simp [hempty] at hstem, ?_⟩
  rintro ⟨word, hword, digits, -, hsplit⟩
  have hbegin := List.all_eq_true.mp (labelWords_begin o.namedLabels) word hword
  cases hchars : word.toList with
  | nil => simp [hchars] at hbegin
  | cons ch chs =>
      rw [hstem, hchars, List.cons_append] at hsplit
      cases (List.cons.inj hsplit).1
      simp [hchars, hd] at hbegin

/-! ## Literals are numerals -/

theorem Expr.Arithmetic.isNumeral_of_leaf {e : Expr} (h : e.Arithmetic) {text : String}
    (hleaf : e.Leaf (.lit text)) : IsNumeral text := by
  induction h with
  | var => cases hleaf
  | lit ht =>
      cases hleaf
      exact ht
  | bin _ _ _ ihL ihR =>
      cases hleaf with
      | left hleaf => exact ihL hleaf
      | right hleaf => exact ihR hleaf

theorem Expr.Comparison.isNumeral_of_leaf {e : Expr} (h : e.Comparison) {text : String}
    (hleaf : e.Leaf (.lit text)) : IsNumeral text := by
  cases h with
  | compare _ hl hr =>
      cases hleaf with
      | left hleaf => exact hl.isNumeral_of_leaf hleaf
      | right hleaf => exact hr.isNumeral_of_leaf hleaf

theorem Stmt.AreWellFormed.isNumeral_of_leaf {ss : List Stmt} (h : AreWellFormed ss) {x : Stmt}
    (hx : x.Occurs ss) {e : Expr} (he : x.expr? = some e) {text : String}
    (hleaf : e.Leaf (.lit text)) : IsNumeral text := by
  induction hx with
  | here rest =>
      cases h with
      | assign _ hvalue _ =>
          cases he
          exact hvalue.isNumeral_of_leaf hleaf
      | loop hcond _ _ | branch hcond _ _ _ =>
          cases he
          exact hcond.isNumeral_of_leaf hleaf
  | later _ ih =>
      cases h with
      | assign _ _ hrest | loop _ _ hrest | branch _ _ _ hrest => exact ih hrest
  | body _ ih =>
      cases h with
      | loop _ hbody _ => exact ih hbody
  | onTrue _ ih =>
      cases h with
      | branch _ hT _ _ => exact ih hT
  | onFalse _ ih =>
      cases h with
      | branch _ _ hF _ => exact ih hF

theorem Program.HasLiteral.isNumeral {p : Program} {text : String} (h : p.HasLiteral text)
    (hp : p.WellFormed) : IsNumeral text := by
  obtain ⟨x, hx, hshows⟩ := h
  cases hshows with
  | leaf he hleaf => exact hp.stmts.isNumeral_of_leaf hx he hleaf

/-! ## Apart -/

namespace Lowering

variable {o : LowerOptions} {p : Program} {lowered : Lowered}

theorem not_hasLiteral_of_lower (h : p.lower o = .ok lowered) (hp : p.WellFormed)
    (hstem : ¬ OpensNumeral o.tempStem) {t : Temp} (ht : t ∈ lowered.code.temps) :
    ¬ p.HasLiteral t.name := by
  intro hliteral
  obtain ⟨c, hfragment⟩ := fragment_of_lower h
  obtain ⟨n, -, -, hname⟩ := (hfragment.temps t ht).name
  have hne := (LowerOptions.check_eq_ok_iff.mp (lower_eq_ok_iff.mp h).1).1
  have hnumeral := hliteral.isNumeral hp
  rw [hname] at hnumeral
  exact hstem ((isNumeral_append_number hne n).mp hnumeral)

/-- Temporaries are told by their texts. -/
theorem temp_iff_mem_tempNames (h : p.lower o = .ok lowered) (hp : p.WellFormed)
    (hstem : ¬ OpensNumeral o.tempStem) {y : Operand} (hy : y ∈ lowered.code.shown) :
    y.temp?.isSome = true ↔ y.text ∈ lowered.code.tempNames := by
  obtain ⟨c, hfragment⟩ := fragment_of_lower h
  rcases shown_of_lower h hy with ⟨t, ht, rfl⟩ | ⟨name, rfl, hname⟩ | ⟨text, rfl, htext⟩
  · exact iff_of_true rfl (List.mem_map_of_mem ht)
  · refine iff_of_false (by simp [Operand.temp?]) fun hmem => ?_
    obtain ⟨t, ht, rfl⟩ := List.mem_map.mp hmem
    exact (hfragment.temps t ht).free (Program.mem_names_iff.mpr hname)
  · refine iff_of_false (by simp [Operand.temp?]) fun hmem => ?_
    obtain ⟨t, ht, rfl⟩ := List.mem_map.mp hmem
    exact not_hasLiteral_of_lower h hp hstem ht htext

theorem tellsTemps_of_lower (h : p.lower o = .ok lowered) (hp : p.WellFormed)
    (hstem : ¬ OpensNumeral o.tempStem) : lowered.code.TellsTemps := by
  intro x hx y hy hsame
  rw [Bool.eq_iff_iff, temp_iff_mem_tempNames h hp hstem hx, hsame,
    temp_iff_mem_tempNames h hp hstem hy]

end Lowering

/-! ## Mistaken -/

/-- A number added to itself. -/
def doubling (numeral : String) : Program :=
  ⟨0, [], [.assign 0 "x" (.bin 0 .add (.lit 0 numeral) (.lit 0 numeral))]⟩

theorem doubling_wellFormed {numeral : String} (h : IsNumeral numeral) :
    (doubling numeral).WellFormed :=
  ⟨by simp [doubling], .assign (by decide) (.bin rfl (.lit h) (.lit h)) .nil⟩

theorem Expr.Leaf.of_erase {e : Expr} {y : Operand} (h : e.erase.Leaf y) : e.Leaf y := by
  induction e with
  | bin pos op l r ihL ihR =>
      cases h with
      | left h => exact .left (ihL h)
      | right h => exact .right (ihR h)
  | lit pos text =>
      cases h
      exact .lit pos text
  | var pos name =>
      cases h
      exact .var pos name
  | missing => cases h

/-- A tree that differs in places only has the literal too. -/
theorem hasLiteral_of_erase {q : Program} {numeral : String}
    (h : q.erase = (doubling numeral).erase) : q.HasLiteral numeral := by
  have hstmts : Stmt.eraseAll q.stmts =
      [.assign 0 "x" (.bin 0 .add (.lit 0 numeral) (.lit 0 numeral))] := congrArg Program.stmts h
  cases hq : q.stmts with
  | nil =>
      rw [hq] at hstmts
      cases hstmts
  | cons x rest =>
      rw [hq] at hstmts
      have hx := (List.cons.inj hstmts).1
      cases x with
      | assign pos name value =>
          obtain ⟨-, -, hvalue⟩ := Stmt.assign.inj hx
          refine ⟨.assign pos name value, hq ▸ .here rest, .leaf rfl (Expr.Leaf.of_erase ?_)⟩
          rw [hvalue]
          exact .left (.lit 0 numeral)
      | loop | branch | missing => cases hx

/-- The first temporary is named by the stem and 0. -/
theorem lower_doubling {o : LowerOptions} (h : OpensNumeral o.tempStem) :
    ∃ lowered, (doubling (o.tempStem ++ toString 0)).lower o = .ok lowered ∧
      ∃ t ∈ lowered.code.temps, t.name = o.tempStem ++ toString 0 := by
  have hcheck := h.check
  have hnumeral := (isNumeral_append_number (LowerOptions.check_eq_ok_iff.mp hcheck).1 0).mpr h
  have hne : o.tempStem ++ toString 0 ≠ "x" := by
    intro hx
    rw [hx] at hnumeral
    exact absurd hnumeral.startsWithDigit (by decide)
  refine ⟨_, Lowering.lower_eq_ok_iff.mpr ⟨hcheck, _, _,
    .assign 0 "x" (.bin 0 rfl (.lit 0 _ {}) (.lit 0 _ {})) (.nil _), rfl⟩, ?_⟩
  refine ⟨((o.scope (doubling (o.tempStem ++ toString 0))).temp {}).1, ?_, ?_⟩
  · rw [Code.temps_append]
    exact List.mem_append_right _ List.mem_cons_self
  · show o.tempStem ++ toString (Lowering.firstFree o.tempStem ["x"] 0) = o.tempStem ++ toString 0
    rw [Lowering.firstFree, if_neg (by simpa using hne)]

theorem exists_mistaken {o : LowerOptions} (h : OpensNumeral o.tempStem) :
    ∃ text p lowered, parse (tokenize text) = .ok p ∧ p.lower o = .ok lowered ∧
      ∃ t ∈ lowered.code.temps, p.HasLiteral t.name := by
  have hstem := (LowerOptions.check_eq_ok_iff.mp h.check).1
  have hnumeral := (isNumeral_append_number hstem 0).mpr h
  obtain ⟨lowered, hlower, t, ht, hname⟩ := lower_doubling h
  obtain ⟨text, -, hwritten⟩ := Printer.format_written (doubling_wellFormed hnumeral)
  obtain ⟨-, q, hq, herase⟩ := parse_of_written hwritten
  refine ⟨Bytes.ofString text, q, lowered, hq, ?_, t, ht, ?_⟩
  · rw [← Program.lower_erase, herase, Program.lower_erase, hlower]
  · rw [hname]
    exact hasLiteral_of_erase herase

/-- Temporaries and literals. Whatever program is read from a text and lowered
with the settings, no temporary is named like a literal of the program and every
text in the listing belongs to temporaries only or to operands of the program only:
this holds unless the stem begins a numeral. -/
theorem literals_told_from_temps_iff (settings : List Setting) :
    (∀ (text : Bytes) (p : Program) (lowered : Lowered), parse (tokenize text) = .ok p →
      p.lower (.ofSettings settings) = .ok lowered →
      (∀ t ∈ lowered.code.temps, ¬ p.HasLiteral t.name) ∧ lowered.code.TellsTemps) ↔
    ¬ OpensNumeral (LowerOptions.ofSettings settings).tempStem := by
  constructor
  · intro h hstem
    obtain ⟨text, p, lowered, hparse, hlower, t, ht, hliteral⟩ := exists_mistaken hstem
    exact (h text p lowered hparse hlower).1 t ht hliteral
  · intro hstem text p lowered hparse hlower
    have hp := wellFormed_of_parse hparse
    exact ⟨fun t => Lowering.not_hasLiteral_of_lower hlower hp hstem,
      Lowering.tellsTemps_of_lower hlower hp hstem⟩

/-- The stem begins with a digit and no numeral begins with it. -/
theorem exponent_stem_told_from_literals :
    ¬ OpensNumeral "1e" ∧
      ∀ (text : Bytes) (p : Program) (lowered : Lowered), parse (tokenize text) = .ok p →
        p.lower (.ofSettings [.tempStem "1e"]) = .ok lowered →
        (∀ t ∈ lowered.code.temps, ¬ p.HasLiteral t.name) ∧ lowered.code.TellsTemps := by
  have hstem : ¬ OpensNumeral "1e" := by
    rintro (⟨-, hdigits⟩ | ⟨whole, digits, -, -, hsplit⟩)
    · exact absurd hdigits (by decide)
    · have hpoint : '.' ∈ "1e".toList := by
        rw [hsplit]
        exact List.mem_append_right _ List.mem_cons_self
      exact absurd hpoint (by decide)
  exact ⟨hstem, (literals_told_from_temps_iff [.tempStem "1e"]).mpr hstem⟩

/-- The tree of `x = 10 + 2;`. -/
def tenAndTwo : Program := ⟨0, [], [.assign 0 "x" (.bin 4 .add (.lit 4 "10") (.lit 9 "2"))]⟩

def tenAndTwoCode : Code :=
  [.binop ⟨0, "10"⟩ .add (.lit "10") (.lit "2"), .copy "x" (.temp ⟨0, "10"⟩)]

/-- With the stem `1` the listing says `10 = 10 + 2;`. -/
theorem ten_is_temp_and_literal :
    parse (tokenize (.ofString "x = 10 + 2;")) = .ok tenAndTwo ∧
      tenAndTwo.lower (.ofSettings [.tempStem "1"]) = .ok ⟨tenAndTwoCode, 1, 0⟩ ∧
      (∃ t ∈ tenAndTwoCode.temps, tenAndTwo.HasLiteral t.name) ∧ ¬ tenAndTwoCode.TellsTemps ∧
      tenAndTwoCode.listing = "10 = 10 + 2;\nx = 10;\n" := by
  refine ⟨by decide +kernel, by decide +kernel, ⟨⟨0, "10"⟩, List.mem_cons_self, ?_⟩, ?_, rfl⟩
  · exact ⟨_, .here [], .leaf rfl (.left (.lit 4 "10"))⟩
  · intro h
    have hsame := h (.temp ⟨0, "10"⟩) (by decide) (.lit "10") (by decide) rfl
    cases hsame

end ThreeAddress
