import ThreeAddress.Program.Basic

/-!
# Trees without places

Erasing puts every node of a tree at offset 0. Two trees with the same erasure
are the same program read from different places.
-/

namespace ThreeAddress

def Expr.erase : Expr → Expr
  | .bin _ op l r => .bin 0 op l.erase r.erase
  | .lit _ text => .lit 0 text
  | .var _ name => .var 0 name
  | .missing => .missing

mutual

def Stmt.erase : Stmt → Stmt
  | .assign _ name value => .assign 0 name value.erase
  | .loop _ cond body => .loop 0 cond.erase (Stmt.eraseAll body)
  | .branch _ cond onTrue onFalse =>
    .branch 0 cond.erase (Stmt.eraseAll onTrue) (Stmt.eraseAll onFalse)
  | .missing => .missing

def Stmt.eraseAll : List Stmt → List Stmt
  | [] => []
  | s :: rest => s.erase :: Stmt.eraseAll rest

end

def Decl.erase (d : Decl) : Decl := { d with pos := 0 }

/-- The program with every node at offset 0. -/
def Program.erase (p : Program) : Program :=
  ⟨0, p.decls.map Decl.erase, Stmt.eraseAll p.stmts⟩

end ThreeAddress
