import ThreeAddress.Compile.Basic
import ThreeAddress.Proofs.Format.RoundTrip

/-!
# Compiling formatted text

Lowering looks at the shape of a tree and at its names, never at the places of
its nodes. So a text and the canonical text of its program, which read as the
same tree at other places, compile alike under all options.
-/

namespace ThreeAddress

/-! ## The names of a tree without places -/

theorem Expr.names_erase (x : Expr) : x.erase.names = x.names := by
  induction x with
  | bin pos op l r ihl ihr => rw [Expr.erase, Expr.names, Expr.names, ihl, ihr]
  | lit | var | missing => rfl

theorem Stmt.namesOf_eraseAll (ss : List Stmt) :
    Stmt.namesOf (Stmt.eraseAll ss) = Stmt.namesOf ss := by
  induction ss using Stmt.block_induction with
  | nil => rfl
  | assign pos name value rest ih =>
      simp only [Stmt.eraseAll, Stmt.erase, Stmt.namesOf, Stmt.names, Expr.names_erase, ih]
  | loop pos cond body rest ihBody ihRest =>
      simp only [Stmt.eraseAll, Stmt.erase, Stmt.namesOf, Stmt.names, Expr.names_erase, ihBody,
        ihRest]
  | branch pos cond onTrue onFalse rest ihTrue ihFalse ihRest =>
      simp only [Stmt.eraseAll, Stmt.erase, Stmt.namesOf, Stmt.names, Expr.names_erase, ihTrue,
        ihFalse, ihRest]
  | missing rest ih => simp only [Stmt.eraseAll, Stmt.erase, Stmt.namesOf, Stmt.names, ih]

theorem Program.names_erase (p : Program) : p.erase.names = p.names := by
  have hdecls : (p.decls.map Decl.erase).flatMap Decl.names = p.decls.flatMap Decl.names := by
    rw [List.flatMap_map]
    rfl
  simp only [Program.names, Program.erase, Stmt.namesOf_eraseAll, hdecls]

/-! ## The code of a tree without places -/

namespace Lowering

theorem expr_erase (s : Scope) (x : Expr) (c : Counters) : expr s x.erase c = expr s x c := by
  induction x generalizing c with
  | bin pos op l r ihl ihr =>
      rw [Expr.erase, expr, expr]
      simp only [ihl, ihr]
  | lit | var | missing => rfl

theorem block_eraseAll (s : Scope) (ss : List Stmt) (c : Counters) :
    block s (Stmt.eraseAll ss) c = block s ss c := by
  induction ss using Stmt.block_induction generalizing c with
  | nil => rfl
  | assign pos name value rest ih =>
      simp only [Stmt.eraseAll, Stmt.erase, block, stmt, expr_erase, ih]
  | loop pos cond body rest ihBody ihRest =>
      simp only [Stmt.eraseAll, Stmt.erase, block, stmt, expr_erase, ihBody, ihRest]
  | branch pos cond onTrue onFalse rest ihTrue ihFalse ihRest =>
      simp only [Stmt.eraseAll, Stmt.erase, block, stmt, expr_erase, ihTrue, ihFalse, ihRest]
  | missing rest ih => rfl

theorem decls_erase (ds : List Decl) : decls (ds.map Decl.erase) = decls ds := by
  rw [decls, decls, List.flatMap_map]
  rfl

end Lowering

theorem Program.lower_erase (o : LowerOptions) (p : Program) : p.erase.lower o = p.lower o := by
  have hstmts : p.erase.stmts = Stmt.eraseAll p.stmts := rfl
  have hdecls : p.erase.decls = p.decls.map Decl.erase := rfl
  simp only [Program.lower, p.names_erase, hstmts, hdecls, Lowering.decls_erase,
    Lowering.block_eraseAll]

/-! ## Texts that read alike -/

/-- What a text compiles to depends on the tree it reads as, and not on places. -/
theorem compile_congr {text text' : Bytes} {p q : Program} (hp : parse (tokenize text) = .ok p)
    (hq : parse (tokenize text') = .ok q) (herase : p.erase = q.erase) (o : CompileOptions)
    (source : String) : compile o source text = compile o source text' := by
  have hlower : p.lower o.lowering = q.lower o.lowering := by
    rw [← p.lower_erase, herase, q.lower_erase]
  rw [compile, compile, hp, hq]
  simp only [mapError_ok, ok_bind, hlower]

/-- Formatting does not change what is compiled. A text that reads as a program
can be formatted, and the formatted text compiles to the same listing, or fails
with the same error, under any name and any options. -/
theorem compile_format {src : Bytes} {p : Program} (h : parse (tokenize src) = .ok p) :
    ∃ text, p.formatOnto "" = .ok text ∧
      ∀ (o : CompileOptions) (source : String),
        compileText o source (Bytes.ofString text) = compileText o source src := by
  obtain ⟨text, htext, hwritten⟩ := Printer.format_written (wellFormed_of_parse h)
  obtain ⟨-, q, hq, herase⟩ := parse_of_written hwritten
  refine ⟨text, htext, fun o source => ?_⟩
  rw [compileText, compileText, compile_congr hq h herase]

/-- A bare `var`, parentheses nobody needs, a stray sign and an empty else part. -/
def scribble : Bytes := Bytes.ofString "var x =((a) +#(1));if(x<(2))\x7b\x7delse\x7b\x7d"

def scribbleTree : Program :=
  ⟨0, [],
    [.assign 4 "x" (.bin 9 .add (.var 9 "a") (.lit 15 "1")),
      .branch 19 (.bin 22 .lt (.var 22 "x") (.lit 25 "2")) [] []]⟩

def scribbleText : String := "x = a + 1;\nif (x < 2) \x7b\n\x7d\n"

def scribbleListing : String :=
  "t0 = a + 1;\nx = t0;\nt1 = x < 2;\nif t1 == 0 goto L0;\ngoto L1;\nL0:\nL1:\n"

theorem scribble_compiles_formatted :
    parse (tokenize scribble) = .ok scribbleTree ∧ scribbleTree.formatOnto "" = .ok scribbleText ∧
      compileText {} "scribble" (Bytes.ofString scribbleText) = .ok scribbleListing ∧
      ∀ (o : CompileOptions) (source : String),
        compileText o source (Bytes.ofString scribbleText) = compileText o source scribble := by
  have hparse : parse (tokenize scribble) = .ok scribbleTree := by decide +kernel
  have hformat : scribbleTree.formatOnto "" = .ok scribbleText := rfl
  have hlisting : compileText {} "scribble" scribble = .ok scribbleListing := by
    rw [compileText, compile, hparse]
    decide +kernel
  obtain ⟨text, htext, hcompile⟩ := compile_format hparse
  rw [hformat] at htext
  cases htext
  exact ⟨hparse, hformat, (hcompile {} "scribble").trans hlisting, hcompile⟩

end ThreeAddress
