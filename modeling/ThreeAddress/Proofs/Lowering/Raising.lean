import Mathlib.Logic.Function.Basic
import ThreeAddress.Proofs.Code.Listing
import ThreeAddress.Proofs.Lexing.Lexemes
import ThreeAddress.Proofs.Lowering.Freshness

/-!
# Raising

Lowering can be undone, and it takes no more than the texts in the code.
`Raising.State.step` reads one instruction after the other. It keeps the
statements of the block it is in, the loops and branches around that block,
and for every name the expression it stands for.

Two facts about names make up for what the texts do not show. A temporary has
the name of nothing else in the program, so a name that no operator assigned
is a leaf. And a mark either places the label that the innermost loop or branch
ends at, which was handed out before, or a new one, which starts a loop.
-/

namespace ThreeAddress

/-! ## Raising code -/

/-- Whether the text starts with a digit, as numerals do and words do not. -/
def startsWithDigit (s : String) : Bool := s.toList.head?.any Char.isDigit

/-- The expression of an operand that no operator assigned. -/
def Expr.leaf (text : String) : Expr :=
  if startsWithDigit text then .lit 0 text else .var 0 text

namespace Raising

/-- A loop or a branch around the instruction to be read, with the statements
before it in the same block. -/
inductive Frame where
  /-- A loop whose condition is not known yet. -/
  | test (before : List Stmt)
  /-- The body of a loop that ends at the label. -/
  | body (before : List Stmt) (finish : String) (cond : Expr)
  /-- The first block of a branch. -/
  | yes (before : List Stmt) (cond : Expr)
  /-- A branch that ends at the label, after its first block. -/
  | turn (before : List Stmt) (finish : String) (cond : Expr) (onTrue : List Stmt)
  /-- The second block of a branch that ends at the label. -/
  | no (before : List Stmt) (finish : String) (cond : Expr) (onTrue : List Stmt)

/-- How far raising has come. -/
structure State where
  /-- What the operand with the text stands for. -/
  value : String → Expr
  /-- The statements of the innermost block. -/
  block : List Stmt
  /-- What is around that block, from the inside out. -/
  around : List Frame

namespace State

/-- Goes into a loop. -/
def enter (st : State) : State := { st with block := [], around := .test st.block :: st.around }

/-- Comes to a place with the name: the end of the innermost loop or branch,
its second block, or the start of a loop. -/
def mark (st : State) (name : String) : State :=
  match st.around with
  | .turn before finish cond onTrue :: outer =>
    { st with around := .no before finish cond onTrue :: outer }
  | .body before finish cond :: outer =>
    if name = finish then ⟨st.value, before ++ [.loop 0 cond st.block], outer⟩ else st.enter
  | .no before finish cond onTrue :: outer =>
    if name = finish then ⟨st.value, before ++ [.branch 0 cond onTrue st.block], outer⟩
    else st.enter
  | _ => st.enter

/-- Jumps: back to the start of a loop, or past the second block of a branch. -/
def goto (st : State) (name : String) : State :=
  match st.around with
  | .yes before cond :: outer => ⟨st.value, [], .turn before name cond st.block :: outer⟩
  | _ => st

/-- Jumps if the condition is zero: out of the loop just entered, or past the
first block of a branch. -/
def ifFalse (st : State) (cond : Expr) (name : String) : State :=
  match st.around with
  | .test before :: outer => { st with around := .body before name cond :: outer }
  | _ => ⟨st.value, [], .yes st.block cond :: st.around⟩

/-- Reads one instruction. -/
def step (st : State) : Instr → State
  | .copy dst x => { st with block := st.block ++ [.assign 0 dst (st.value x.text)] }
  | .binop t op x y =>
    let whole := .bin 0 op (st.value x.text) (st.value y.text)
    { st with value := Function.update st.value t.name whole }
  | .mark l => st.mark l.name
  | .goto l => st.goto l.name
  | .ifFalse x l => st.ifFalse (st.value x.text) l.name
  | .decl .. | .missing => st

def run (st : State) (code : Code) : State := code.foldl step st

@[simp] theorem run_nil (st : State) : st.run [] = st := rfl

@[simp] theorem run_cons (st : State) (x : Instr) (code : Code) :
    st.run (x :: code) = (st.step x).run code := rfl

@[simp] theorem run_append (st : State) (code more : Code) :
    st.run (code ++ more) = (st.run code).run more := List.foldl_append

/-- Raising looks at nothing that the listing does not show. -/
theorem run_face (st : State) (code : Code) : st.run (code.map Instr.face) = st.run code := by
  have hstep : ∀ (st : State) (x : Instr), st.step x.face = st.step x := by
    intro st x
    cases x <;> rfl
  simp only [run, List.foldl_map, hstep]

end State

end Raising

/-- The statements the code was lowered from, without their places. -/
def Code.raise (code : Code) : List Stmt := (Raising.State.run ⟨Expr.leaf, [], []⟩ code).block

/-! ## Words and numerals -/

theorem IsWord.startsWithDigit {s : String} (h : IsWord s) : startsWithDigit s = false := by
  obtain ⟨c, cs, hs, hc, -⟩ := h
  rw [ThreeAddress.startsWithDigit, hs, Bool.eq_false_iff]
  intro hdigit
  rw [isNameStart_of_isDigit (by simpa using hdigit)] at hc
  cases hc

theorem IsNumeral.startsWithDigit {s : String} (h : IsNumeral s) : startsWithDigit s = true := by
  have hfront : ∀ ds more, IsDigits ds → s.toList = ds ++ more →
      ThreeAddress.startsWithDigit s = true := by
    rintro (_ | ⟨d, ds⟩) more ⟨hne, hds⟩ hs
    · cases hne rfl
    · simp_all [ThreeAddress.startsWithDigit]
  rcases h with hs | ⟨whole, fraction, hw, -, hs⟩
  · exact hfront s.toList [] hs (by simp)
  · exact hfront whole _ hw hs

theorem IsWord.append_number {s : String} (h : IsWord s) (n : Nat) : IsWord (s ++ toString n) := by
  obtain ⟨c, cs, hs, hc, hcs⟩ := h
  refine ⟨c, cs ++ (toString n).toList, by simp [hs], hc, ?_⟩
  rw [List.all_append, hcs, Bool.true_and, List.all_eq_true]
  intro d hd
  rw [ThreeAddress.isNameChar, isDigit_of_mem_number hd, Bool.or_true]

namespace Lowering

open Raising

variable {s : Scope} {c c' : Counters} {code : Code}

theorem Scope.MakesTemp.isWord {t : Temp} (h : s.MakesTemp c c' t) (hstem : IsWord s.stem) :
    IsWord t.name := by
  obtain ⟨n, -, -, hname⟩ := h.name
  rw [hname]
  exact hstem.append_number n

/-! ## What can be told apart -/

/-- The names in the expression are known to the scope, its literals are numerals. -/
def Scope.Spells (s : Scope) : Expr → Prop
  | .bin _ _ l r => s.Spells l ∧ s.Spells r
  | .lit _ text => IsNumeral text
  | .var _ name => IsWord name ∧ name ∈ s.taken
  | .missing => False

theorem spells_of_arithmetic {e : Expr} (h : e.Arithmetic) (hnames : ∀ n ∈ e.names, n ∈ s.taken) :
    s.Spells e := by
  induction h with
  | var hname => exact ⟨hname.1, hnames _ (by simp [Expr.names])⟩
  | lit htext => exact htext
  | bin _ _ _ ihl ihr =>
      simp only [Expr.names, List.forall_mem_append] at hnames
      exact ⟨ihl hnames.1, ihr hnames.2⟩

theorem spells_of_comparison {e : Expr} (h : e.Comparison) (hnames : ∀ n ∈ e.names, n ∈ s.taken) :
    s.Spells e := by
  cases h with
  | compare _ hl hr =>
      simp only [Expr.names, List.forall_mem_append] at hnames
      exact ⟨spells_of_arithmetic hl hnames.1, spells_of_arithmetic hr hnames.2⟩

/-- The same for all statements of a block, those inside them included. -/
inductive Scope.SpellsAll (s : Scope) : List Stmt → Prop
  | nil : s.SpellsAll []
  | assign {pos : Int} {name : String} {value : Expr} {rest : List Stmt} : IsWord name →
      s.Spells value → s.SpellsAll rest → s.SpellsAll (.assign pos name value :: rest)
  | loop {pos : Int} {cond : Expr} {body rest : List Stmt} : s.Spells cond →
      s.SpellsAll body → s.SpellsAll rest → s.SpellsAll (.loop pos cond body :: rest)
  | branch {pos : Int} {cond : Expr} {onTrue onFalse rest : List Stmt} : s.Spells cond →
      s.SpellsAll onTrue → s.SpellsAll onFalse → s.SpellsAll rest →
      s.SpellsAll (.branch pos cond onTrue onFalse :: rest)

theorem spellsAll_of_wellFormed {ss : List Stmt} (h : Stmt.AreWellFormed ss)
    (hnames : ∀ n ∈ Stmt.namesOf ss, n ∈ s.taken) : s.SpellsAll ss := by
  induction h with
  | nil => exact .nil
  | assign hname hvalue _ ih =>
      simp only [Stmt.namesOf, Stmt.names, List.forall_mem_append, List.forall_mem_cons] at hnames
      exact .assign hname.1 (spells_of_arithmetic hvalue hnames.1.2) (ih hnames.2)
  | loop hcond _ _ ihB ih =>
      simp only [Stmt.namesOf, Stmt.names, List.forall_mem_append] at hnames
      exact .loop (spells_of_comparison hcond hnames.1.1) (ihB hnames.1.2) (ih hnames.2)
  | branch hcond _ _ _ ihT ihF ih =>
      simp only [Stmt.namesOf, Stmt.names, List.forall_mem_append] at hnames
      exact .branch (spells_of_comparison hcond hnames.1.1) (ihT hnames.1.2.1) (ihF hnames.1.2.2)
        (ih hnames.2)

theorem spellsAll_scope {p : Program} (h : p.WellFormed) (o : LowerOptions) :
    (o.scope p).SpellsAll p.stmts :=
  spellsAll_of_wellFormed h.stmts fun _ hn => List.mem_append_right _ hn

/-! ## Expressions -/

/-- Names of the program and numerals stand for themselves. -/
def Scope.Plain (s : Scope) (value : String → Expr) : Prop :=
  ∀ n, n ∈ s.taken ∨ startsWithDigit n = true → value n = .leaf n

theorem Scope.Plain.update {value : String → Expr} {t : Temp} (h : s.Plain value)
    (ht : s.MakesTemp c c' t) (hstem : IsWord s.stem) (e : Expr) :
    s.Plain (Function.update value t.name e) := by
  intro n hn
  have hne : n ≠ t.name := by
    rintro rfl
    rcases hn with hn | hn
    · exact ht.free hn
    · rw [(ht.isWord hstem).startsWithDigit] at hn
      cases hn
  rw [Function.update_of_ne hne]
  exact h n hn

/-- What holds the value of an expression is assigned by no code after it. -/
theorem EmitsExpr.not_mem_tempNames {e : Expr} {x : Operand} {c'' : Counters} {more : Code}
    (h : EmitsExpr s e c code x c') (hstem : IsWord s.stem) (he : s.Spells e)
    (hmore : Fragment s c' c'' more) : x.text ∉ more.tempNames := by
  rw [Code.tempNames, List.mem_map]
  rintro ⟨t, ht, hname⟩
  have hmakes := hmore.temps t ht
  cases h with
  | lit =>
      have hword := (hmakes.isWord hstem).startsWithDigit
      rw [hname, Operand.text, IsNumeral.startsWithDigit he] at hword
      cases hword
  | var =>
      refine hmakes.free ?_
      rw [hname]
      exact he.2
  | bin => exact ((Scope.makesTemp_temp s _).ne hmakes).2 hname.symm

theorem EmitsExpr.raised {e : Expr} {x : Operand} (h : EmitsExpr s e c code x c')
    (hstem : IsWord s.stem) (he : s.Spells e) (block : List Stmt) (around : List Frame)
    {value : String → Expr} (hvalue : s.Plain value) :
    ∃ value', State.run ⟨value, block, around⟩ code = ⟨value', block, around⟩ ∧ s.Plain value' ∧
      value' x.text = e.erase ∧ ∀ n, n ∉ code.tempNames → value' n = value n := by
  induction h generalizing value with
  | lit pos text c =>
      refine ⟨value, rfl, hvalue, ?_, fun _ _ => rfl⟩
      have hdigit := IsNumeral.startsWithDigit he
      rw [Operand.text, hvalue text (.inr hdigit), Expr.leaf, if_pos hdigit, Expr.erase]
  | var pos name c =>
      refine ⟨value, rfl, hvalue, ?_, fun _ _ => rfl⟩
      rw [Operand.text, hvalue name (.inl he.2), Expr.leaf, he.1.startsWithDigit, Expr.erase]
      rfl
  | @bin pos op l r c c₁ c₂ codeL codeR x y _ hl hr ihL ihR =>
      obtain ⟨value₁, hrunL, hvalue₁, hx, hkeep₁⟩ := ihL he.1 hvalue
      obtain ⟨value₂, hrunR, hvalue₂, hy, hkeep₂⟩ := ihR he.2 hvalue₁
      -- the right operand leaves the value of the left one alone
      have hx₂ : value₂ x.text = l.erase := by
        rw [hkeep₂ x.text (hl.not_mem_tempNames hstem he.1 hr.fragment), hx]
      refine ⟨Function.update value₂ (s.temp c₂).1.name (.bin 0 op l.erase r.erase), ?_,
        hvalue₂.update (s.makesTemp_temp c₂) hstem _, ?_, ?_⟩
      · simp only [State.run_append, hrunL, hrunR, State.run_cons, State.run_nil, State.step, hx₂,
          hy]
      · rw [Operand.text, Function.update_self, Expr.erase]
      · intro n hn
        simp only [Code.tempNames_append, List.mem_append, not_or] at hn
        have hne : n ≠ (s.temp c₂).1.name := by
          simpa [Code.tempNames, Instr.assigned?] using hn.2
        rw [Function.update_of_ne hne, hkeep₂ n hn.1.2, hkeep₁ n hn.1.1]

/-! ## Blocks -/

/-- Statements may come next, and the label that the innermost loop or branch
ends at was handed out before. -/
inductive Ready (s : Scope) (c : Counters) : List Frame → Prop
  | top : Ready s c []
  | body {l : Label} (before : List Stmt) (cond : Expr) (outer : List Frame) :
      s.MakesLabel {} c l → Ready s c (.body before l.name cond :: outer)
  | yes (before : List Stmt) (cond : Expr) (outer : List Frame) :
      Ready s c (.yes before cond :: outer)
  | no {l : Label} (before : List Stmt) (cond : Expr) (onTrue : List Stmt) (outer : List Frame) :
      s.MakesLabel {} c l → Ready s c (.no before l.name cond onTrue :: outer)

theorem Ready.widen {around : List Frame} (h : Ready s c around) (hc : c.Below c') :
    Ready s c' around := by
  cases h with
  | top => exact .top
  | body _ _ _ hl => exact .body _ _ _ (hl.widen (.refl _) hc)
  | yes => exact .yes _ _ _
  | no _ _ _ _ hl => exact .no _ _ _ _ (hl.widen (.refl _) hc)

theorem Counters.zero_below (c : Counters) : Counters.Below {} c := by
  refine ⟨Nat.zero_le _, Nat.zero_le _, Nat.zero_le _, fun purpose => ?_⟩
  cases purpose <;> exact Nat.zero_le _

theorem Scope.makesLabel_closing (purpose : Purpose) (hc : (c.withLabels purpose).Below c') :
    s.MakesLabel {} c' (s.closing purpose c) :=
  (s.makesLabel_label .finish _).widen (Counters.zero_below _) hc

section Ready

variable {around : List Frame} (value : String → Expr) (block : List Stmt)

/-- A new label starts a loop. -/
theorem Ready.mark_opening (h : Ready s c around) :
    State.mark ⟨value, block, around⟩ (s.opening .loop c).name =
      ⟨value, [], .test block :: around⟩ := by
  have hnew := s.makesLabel_label .loop c
  cases h with
  | top | yes => rfl
  | body _ _ _ hl | no _ _ _ _ hl => exact if_neg (hl.ne hnew).2.symm

/-- A condition that no loop asked for starts a branch. -/
theorem Ready.ifFalse (h : Ready s c around) (cond : Expr) (name : String) :
    State.ifFalse ⟨value, block, around⟩ cond name = ⟨value, [], .yes block cond :: around⟩ := by
  cases h <;> rfl

end Ready

/-- Raising the code of a block gives the block. -/
theorem Emits.raised {ss : List Stmt} (h : Emits s ss c code c') (hstem : IsWord s.stem)
    (hss : s.SpellsAll ss) {value : String → Expr} (hvalue : s.Plain value) (block : List Stmt)
    {around : List Frame} (hready : Ready s c around) :
    ∃ value', State.run ⟨value, block, around⟩ code =
      ⟨value', block ++ Stmt.eraseAll ss, around⟩ ∧ s.Plain value' := by
  -- what is around a block and what stands before it differ from block to block
  induction h generalizing value block around with
  | nil => exact ⟨value, by simp [Stmt.eraseAll], hvalue⟩
  | @assign pos name e rest c c₁ c₂ code more x he _ ih =>
      cases hss with
      | assign _ hexpr hrest =>
      obtain ⟨value₁, hrun₁, hvalue₁, hx, -⟩ := he.raised hstem hexpr block around hvalue
      obtain ⟨value₂, hrun₂, hvalue₂⟩ := ih hrest hvalue₁
        (block ++ [.assign 0 name e.erase]) (hready.widen he.fragment.below)
      refine ⟨value₂, ?_, hvalue₂⟩
      simp only [State.run_append, hrun₁, State.run_cons, State.step, hx, hrun₂, Stmt.eraseAll,
        Stmt.erase, List.append_assoc, List.singleton_append]
  | @loop pos cond body rest c c₁ c₂ c₃ test inner more x he hB _ ihB ih =>
      cases hss with
      | loop hcond hbody hrest =>
      have hbelow : c.Below c₂ := (Fragment.labels (s := s) .loop c).below
        |>.trans he.fragment.below |>.trans hB.fragment.below
      let finish := (s.closing .loop c).name
      let whole : Stmt := .loop 0 cond.erase (Stmt.eraseAll body)
      obtain ⟨value₁, hrun₁, hvalue₁, hx, -⟩ :=
        he.raised hstem hcond [] (.test block :: around) hvalue
      obtain ⟨value₂, hrun₂, hvalue₂⟩ := ihB hbody hvalue₁ []
        (.body block cond.erase around (Scope.makesLabel_closing .loop he.fragment.below))
      obtain ⟨value₃, hrun₃, hvalue₃⟩ := ih hrest hvalue₂ (block ++ [whole]) (hready.widen hbelow)
      refine ⟨value₃, ?_, hvalue₃⟩
      -- into the loop, past its condition, through its body and out at its end
      calc
        _ = State.run ⟨value, [], .test block :: around⟩ (test ++ .ifFalse x (s.closing .loop c) ::
              (inner ++ .goto (s.opening .loop c) :: .mark (s.closing .loop c) :: more)) := by
          rw [State.run_cons, State.step, hready.mark_opening]
        _ = State.run ⟨value₁, [], .body block finish cond.erase :: around⟩
              (inner ++ .goto (s.opening .loop c) :: .mark (s.closing .loop c) :: more) := by
          simp only [State.run_append, hrun₁, State.run_cons, State.step, hx, State.ifFalse, finish]
        _ = State.run ⟨value₂, block ++ [whole], around⟩ more := by
          simp only [State.run_append, hrun₂, State.run_cons, State.step, State.goto, State.mark,
            finish, whole, if_true, List.nil_append]
        _ = _ := by
          simp only [hrun₃, whole, Stmt.eraseAll, Stmt.erase, List.append_assoc,
            List.singleton_append]
  | @branch pos cond onTrue onFalse rest c c₁ c₂ c₃ c₄ test yes no more x he hT hF _ ihT ihF ih =>
      cases hss with
      | branch hcond hyes hno hrest =>
      have hlabels : c.Below (c.withLabels .otherwise) :=
        (Fragment.labels (s := s) .otherwise c).below
      have hblocks := he.fragment.below.trans hT.fragment.below
      let finish := (s.closing .otherwise c).name
      let whole : Stmt := .branch 0 cond.erase (Stmt.eraseAll onTrue) (Stmt.eraseAll onFalse)
      obtain ⟨value₁, hrun₁, hvalue₁, hx, -⟩ := he.raised hstem hcond block around hvalue
      obtain ⟨value₂, hrun₂, hvalue₂⟩ := ihT hyes hvalue₁ [] (.yes block cond.erase around)
      obtain ⟨value₃, hrun₃, hvalue₃⟩ := ihF hno hvalue₂ []
        (.no block cond.erase (Stmt.eraseAll onTrue) around
          (Scope.makesLabel_closing .otherwise hblocks))
      obtain ⟨value₄, hrun₄, hvalue₄⟩ := ih hrest hvalue₃ (block ++ [whole])
        (hready.widen (hlabels.trans (hblocks.trans hF.fragment.below)))
      refine ⟨value₄, ?_, hvalue₄⟩
      -- past the condition, through one block, through the other and out at the end
      calc
        _ = State.run ⟨value₁, [], .yes block cond.erase :: around⟩
              (yes ++ .goto (s.closing .otherwise c) :: .mark (s.opening .otherwise c) ::
                (no ++ .mark (s.closing .otherwise c) :: more)) := by
          simp only [State.run_append, hrun₁, State.run_cons, State.step, hx, hready.ifFalse]
        _ = State.run ⟨value₂, [], .no block finish cond.erase (Stmt.eraseAll onTrue) :: around⟩
              (no ++ .mark (s.closing .otherwise c) :: more) := by
          simp only [State.run_append, hrun₂, State.run_cons, State.step, State.goto, State.mark,
            finish, List.nil_append]
        _ = State.run ⟨value₃, block ++ [whole], around⟩ more := by
          simp only [State.run_append, hrun₃, State.run_cons, State.step, State.mark, finish, whole,
            if_true, List.nil_append]
        _ = _ := by
          simp only [hrun₄, whole, Stmt.eraseAll, Stmt.erase, List.append_assoc,
            List.singleton_append]

/-! ## Whole programs -/

theorem run_decls (ds : List Decl) (st : State) : st.run (decls ds) = st := by
  have hskip : ∀ head : Code, (∀ y ∈ head, ∃ ty name, y = .decl ty name) → st.run head = st := by
    intro head hhead
    induction head with
    | nil => rfl
    | cons y rest ih =>
        obtain ⟨⟨ty, name, rfl⟩, hrest⟩ := List.forall_mem_cons.mp hhead
        exact ih hrest
  exact hskip _ fun y => eq_decl_of_mem_decls

/-- Raising undoes lowering, up to the places of the nodes. -/
theorem raise_of_lower {o : LowerOptions} {p : Program} {lowered : Lowered}
    (hstem : IsWord o.tempStem) (hp : p.WellFormed) (h : p.lower o = .ok lowered) :
    lowered.code.raise = Stmt.eraseAll p.stmts := by
  obtain ⟨-, body, c, hemits, rfl⟩ := lower_eq_ok_iff.mp h
  have hhead : State.run ⟨.leaf, [], []⟩ (if o.noDecls then [] else decls p.decls) =
      ⟨.leaf, [], []⟩ := by
    cases o.noDecls with
    | true => rfl
    | false => exact run_decls p.decls _
  obtain ⟨value, hrun, -⟩ := hemits.raised hstem (spellsAll_scope hp o) (fun _ _ => rfl) [] .top
  rw [Code.raise, State.run_append, hhead, hrun, List.nil_append]

end Lowering

end ThreeAddress
