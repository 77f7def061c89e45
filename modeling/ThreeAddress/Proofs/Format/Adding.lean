import ThreeAddress.Program.Printer
import ThreeAddress.Proofs.Attempt
import ThreeAddress.Proofs.Program.Blocks

/-!
# What printing adds

A printer is handed a text and returns it with more at its end. What it adds, or how
it fails, does not depend on the text it is handed (`Adds`). So a program adds the
same text behind others as it gives when it is printed alone
(`Program.formatOnto_eq`).
-/

namespace ThreeAddress

namespace Printer

/-- Whatever text is handed to it, the printer adds the same to its end, or fails in
the same way. -/
def Adds (print : String → Printed) (added : Printed) : Prop :=
  ∀ text, print text = added.map (text ++ ·)

section

variable {f g : String → Printed} {r r' : Printed}

theorem adds_text (s : String) : Adds (fun text => .ok (text ++ s)) (.ok s) := fun _ => rfl

theorem adds_error (e : FormatError) : Adds (fun _ => .error e) (.error e) := fun _ => rfl

theorem Adds.within (h : Adds f r) (site : Site) :
    Adds (fun text => within site (f text)) (within site r) := by
  intro text
  show Printer.within site (f text) = _
  rw [h text]
  cases r with
  | error e => rfl
  | ok s => rfl

/-- One printer after another. -/
theorem Adds.andThen (hf : Adds f r) (hg : Adds g r') :
    Adds (fun text => f text >>= g) (do return (← r) ++ (← r')) := by
  intro text
  show f text >>= g = _
  rw [hf text]
  cases r with
  | error e => rfl
  | ok s =>
      show g (text ++ s) = _
      rw [hg (text ++ s)]
      cases r' with
      | error e => rfl
      | ok t => exact congrArg Except.ok String.append_assoc

/-- A printer behind a piece of text. -/
theorem Adds.behind (h : Adds f r) (s : String) :
    Adds (fun text => f (text ++ s)) (do return s ++ (← r)) := (adds_text s).andThen h

/-- A printer and a piece of text behind what it adds. -/
theorem Adds.before (h : Adds f r) (s : String) :
    Adds (fun text => do return (← f text) ++ s) (do return (← r) ++ s) :=
  h.andThen (adds_text s)

end

/-! ## Trees -/

/-- An operation, in parentheses where they are needed. -/
theorem adds_bin {op : Op} {l r : Expr} {left right : Printed} (hop : op.prec ≠ 0)
    (hl : Adds (expr op.prec l) left) (hr : Adds (expr (op.prec + 1) r) right) (pos : Int)
    (level : Nat) :
    Adds (expr level (.bin pos op l r)) (do
      let left ← within .left left
      let right ← within .right right
      let bare := left ++ (" " ++ op.symbol ++ " ") ++ right
      return if op.prec < level then "(" ++ bare ++ ")" else bare) := by
  intro text
  rw [expr, if_neg hop]
  refine (((hl.within .left).behind _).andThen (((hr.within .right).behind _).before _)
    text).trans ?_
  cases within .left left with
  | error e => rfl
  | ok a =>
      cases within .right right with
      | error e => rfl
      | ok b =>
          refine congrArg (fun s => Except.ok (text ++ s)) ?_
          split
          · simp only [String.append_assoc]
          · simp only [String.empty_append, String.append_empty, String.append_assoc]

theorem exists_adds_expr (x : Expr) (level : Nat) : ∃ r, Adds (expr level x) r := by
  induction x generalizing level with
  | var pos name => exact ⟨_, adds_text name⟩
  | lit pos digits => exact ⟨_, adds_text digits⟩
  | missing => exact ⟨_, adds_error _⟩
  | bin pos op l r ihl ihr =>
      obtain ⟨left, hleft⟩ := ihl op.prec
      obtain ⟨right, hright⟩ := ihr (op.prec + 1)
      by_cases hop : op.prec = 0
      · refine ⟨.error ⟨[], .operator op⟩, fun text => ?_⟩
        rw [expr, if_pos hop]
        rfl
      · exact ⟨_, adds_bin hop hleft hright pos level⟩

theorem exists_adds_heading (depth : Nat) (clause : Clause) (cond : Expr) :
    ∃ r, Adds (heading depth clause cond) r := by
  obtain ⟨r, hr⟩ := exists_adds_expr cond 0
  exact ⟨_, ((hr.within (.condition clause)).behind _).before _⟩

theorem adds_nil (depth : Nat) : Adds (block depth []) (.ok "") := by
  intro text
  rw [block]
  exact congrArg Except.ok String.append_empty.symm

theorem exists_adds_cons {depth : Nat} {s : Stmt} {ss : List Stmt}
    (hs : ∃ r, Adds (stmt depth s) r) (hss : ∃ r, Adds (block depth ss) r) :
    ∃ r, Adds (block depth (s :: ss)) r := by
  obtain ⟨first, hfirst⟩ := hs
  obtain ⟨more, hmore⟩ := hss
  exact ⟨_, hfirst.andThen hmore⟩

theorem exists_adds_block (ss : List Stmt) (depth : Nat) : ∃ r, Adds (block depth ss) r := by
  induction ss using Stmt.block_induction generalizing depth with
  | nil => exact ⟨_, adds_nil depth⟩
  | assign pos name value rest ih =>
      obtain ⟨r, hr⟩ := exists_adds_expr value 0
      exact exists_adds_cons ⟨_, ((hr.within (.assignment name)).behind _).before _⟩ (ih depth)
  | loop pos cond body rest ihBody ihRest =>
      obtain ⟨head, hhead⟩ := exists_adds_heading depth .loop cond
      obtain ⟨inner, hinner⟩ := ihBody (depth + 1)
      exact exists_adds_cons ⟨_, hhead.andThen ((hinner.within .loopBody).before _)⟩ (ihRest depth)
  | branch pos cond onTrue onFalse rest ihTrue ihFalse ihRest =>
      obtain ⟨head, hhead⟩ := exists_adds_heading depth .branch cond
      obtain ⟨yes, hyes⟩ := ihTrue (depth + 1)
      obtain ⟨no, hno⟩ := ihFalse (depth + 1)
      refine exists_adds_cons ?_ (ihRest depth)
      cases onFalse with
      | nil => exact ⟨_, hhead.andThen ((hyes.within .thenBlock).before _)⟩
      | cons s ss =>
          exact ⟨_, hhead.andThen ((hyes.within .thenBlock).andThen
            (((hno.within .elseBlock).behind _).before _))⟩
  | missing rest ih => exact exists_adds_cons ⟨_, adds_error _⟩ (ih depth)

theorem foldl_decl (ds : List Decl) (text : String) :
    ds.foldl (fun text d => text ++ decl d) text = text ++ String.join (ds.map decl) := by
  induction ds generalizing text with
  | nil => exact String.append_empty.symm
  | cons d ds ih => rw [List.foldl_cons, ih, List.map_cons, String.join_cons, String.append_assoc]

/-- The declarations, and the empty line behind them. -/
def preambleText (p : Program) : String :=
  if p.decls.isEmpty then ""
  else "var\n" ++ String.join (p.decls.map decl) ++ (if p.stmts.isEmpty then "" else "\n")

theorem preamble_eq (p : Program) (text : String) : preamble p text = text ++ preambleText p := by
  unfold preamble preambleText
  split
  · exact String.append_empty.symm
  · rw [foldl_decl]
    split
    · rw [String.append_empty, String.append_assoc]
    · rw [String.append_assoc, String.append_assoc, String.append_assoc]

theorem adds_formatOnto {p : Program} {r : Printed} (h : Adds (block 0 p.stmts) r) :
    Adds (fun text => p.formatOnto text)
      (within .program (do return preambleText p ++ (← r))) := by
  intro text
  show within .program (block 0 p.stmts (preamble p text)) = _
  rw [preamble_eq]
  exact (h.behind (preambleText p)).within .program text

end Printer

/-- A program is added to a text as it is printed alone. -/
theorem Program.formatOnto_eq (text : String) (p : Program) :
    p.formatOnto text = (p.formatOnto "").map (text ++ ·) := by
  obtain ⟨r, hr⟩ := Printer.exists_adds_block p.stmts 0
  have hadds : ∀ text, p.formatOnto text = _ := Printer.adds_formatOnto hr
  rw [hadds text, hadds ""]
  cases Printer.within .program _ with
  | error e => rfl
  | ok s =>
      show Except.ok (text ++ s) = Except.ok (text ++ ("" ++ s))
      rw [String.empty_append]

end ThreeAddress
