import ThreeAddress.Program.Basic

/-!
# Blocks of statements

Statements hold blocks and blocks hold statements. `Stmt.block_induction`
proves a property of all blocks at once: it follows the first statement of a
block into the blocks that statement holds, and then the rest of the block.

A tree is *supported* if it has no holes and all its operators belong to the
language.
-/

namespace ThreeAddress

/-- Induction on a block, by the shape of its first statement. -/
@[elab_as_elim]
theorem Stmt.block_induction {motive : List Stmt → Prop} (nil : motive [])
    (assign : ∀ pos name value rest, motive rest →
      motive (.assign pos name value :: rest))
    (loop : ∀ pos cond body rest, motive body → motive rest →
      motive (.loop pos cond body :: rest))
    (branch : ∀ pos cond onTrue onFalse rest, motive onTrue → motive onFalse → motive rest →
      motive (.branch pos cond onTrue onFalse :: rest))
    (missing : ∀ rest, motive rest → motive (.missing :: rest)) :
    ∀ block, motive block := by
  intro block
  -- A statement is good if it may be put in front of any good block.
  refine @Stmt.rec_1 (fun s => ∀ rest, motive rest → motive (s :: rest)) motive
    ?_ ?_ ?_ ?_ nil ?_ block
  · exact fun pos name value rest h => assign pos name value rest h
  · exact fun pos cond body hbody rest h => loop pos cond body rest hbody h
  · exact fun pos cond onTrue onFalse hT hF rest h =>
      branch pos cond onTrue onFalse rest hT hF h
  · exact missing
  · exact fun s rest hs hrest => hs rest hrest

/-! ## Supported trees -/

/-- Whether an expression has no holes and only operators of the language. -/
def Expr.isSupported : Expr → Bool
  | .bin _ op l r => op.isValid && l.isSupported && r.isSupported
  | .lit .. | .var .. => true
  | .missing => false

mutual

/-- Whether a statement has no holes and only operators of the language. -/
def Stmt.isSupported : Stmt → Bool
  | .assign _ _ value => value.isSupported
  | .loop _ cond body => cond.isSupported && Stmt.areSupported body
  | .branch _ cond onTrue onFalse =>
    cond.isSupported && Stmt.areSupported onTrue && Stmt.areSupported onFalse
  | .missing => false

/-- Whether all statements of a block are supported. -/
def Stmt.areSupported : List Stmt → Bool
  | [] => true
  | s :: rest => s.isSupported && Stmt.areSupported rest

end

/-- Whether a program has no holes and only operators of the language. -/
def Program.isSupported (p : Program) : Bool := Stmt.areSupported p.stmts

theorem Stmt.areSupported_append (block rest : List Stmt) :
    Stmt.areSupported (block ++ rest) = (Stmt.areSupported block && Stmt.areSupported rest) := by
  induction block with
  | nil => simp [Stmt.areSupported]
  | cons s block ih => simp [Stmt.areSupported, ih, Bool.and_assoc]

end ThreeAddress
