import ThreeAddress.Proofs.Format.Printing
import ThreeAddress.Proofs.Grammar.Completeness
import ThreeAddress.Proofs.Grammar.Image

/-!
# Printing and reading back

Well-formed trees are what reading a text can give, and printing one and
reading the text gives it back, places aside. Where the nodes of a tree stand
makes no difference to its text, so a text that was printed from what it reads
as is printed again as it is.
-/

namespace ThreeAddress

/-! ## The text of a tree without places -/

namespace Printer

theorem expr_erase (x : Expr) (level : Nat) : expr level x.erase = expr level x := by
  induction x generalizing level with
  | bin pos op l r ihl ihr =>
      funext text
      rw [Expr.erase, expr, expr]
      simp only [ihl, ihr]
  | lit | var | missing => rfl

theorem heading_erase (depth : Nat) (clause : Clause) (cond : Expr) :
    heading depth clause cond.erase = heading depth clause cond := by
  funext text
  rw [heading, heading, expr_erase]

theorem isEmpty_eraseAll (ss : List Stmt) : (Stmt.eraseAll ss).isEmpty = ss.isEmpty := by
  cases ss <;> rfl

theorem block_eraseAll (ss : List Stmt) (depth : Nat) :
    block depth (Stmt.eraseAll ss) = block depth ss := by
  induction ss using Stmt.block_induction generalizing depth with
  | nil => rfl
  | assign pos name value rest ih =>
      funext text
      simp only [Stmt.eraseAll, Stmt.erase, block, stmt, expr_erase, ih]
  | loop pos cond body rest ihBody ihRest =>
      funext text
      simp only [Stmt.eraseAll, Stmt.erase, block, stmt, heading_erase, ihBody, ihRest]
  | branch pos cond onTrue onFalse rest ihTrue ihFalse ihRest =>
      funext text
      simp only [Stmt.eraseAll, Stmt.erase, block, stmt, heading_erase, isEmpty_eraseAll, ihTrue,
        ihFalse, ihRest]
  | missing rest ih =>
      funext text
      simp only [Stmt.eraseAll, Stmt.erase, block, stmt, ih]

theorem preamble_erase (p : Program) : preamble p.erase = preamble p := by
  have hdecl : ∀ d : Decl, decl d.erase = decl d := fun _ => rfl
  funext text
  simp only [preamble, Program.erase, List.isEmpty_map, List.foldl_map, hdecl, isEmpty_eraseAll]

end Printer

theorem Program.formatOnto_erase (text : String) (p : Program) :
    p.erase.formatOnto text = p.formatOnto text := by
  rw [formatOnto, formatOnto, Printer.preamble_erase]
  rw [show p.erase.stmts = Stmt.eraseAll p.stmts from rfl, Printer.block_eraseAll]

theorem Program.formatOnto_congr {p q : Program} (h : p.erase = q.erase) (text : String) :
    p.formatOnto text = q.formatOnto text := by
  rw [← p.formatOnto_erase, h, q.formatOnto_erase]

/-! ## Reading back -/

theorem wellFormed_of_parse {text : Bytes} {p : Program} (h : parse (tokenize text) = .ok p) :
    p.WellFormed := by
  apply Program.WellFormed.of_erase
  refine (sentence_of_parse h).wellFormed fun t ht => ?_
  exact spelled_of_mem_tokenize (mem_of_mem_sentence ht)

/-- A text that spells a sentence is read as that sentence, and as nothing else. -/
theorem parse_of_written {text : String} {t : Program}
    (h : Writing.Written Writing.Anything text (Grammar.Sentence · t)) :
    anomalies (Bytes.ofString text) = [] ∧
      ∃ q, parse (tokenize (Bytes.ofString text)) = .ok q ∧ q.erase = t := by
  obtain ⟨w, hw, hreads⟩ := h .start [] trivial
  rw [List.append_nil] at hreads
  have hall := hreads.all_of_end
  refine ⟨by rw [anomalies, Cursor.ofBytes_eq, hall], parse_of_sentence ?_⟩
  rw [tokenize, Cursor.ofBytes_eq, hall, sentence_append_eof hreads.proper rfl]
  exact hw

/-- Printing and reading are inverse up to places: what is read from any text
is well-formed, and what is well-formed can be printed, to a text without
anomalies that reads as the same tree. So printing what was read from a text
gives a text that is printed again as it is. -/
theorem parse_format_inverse :
    (∀ (text : Bytes) (p : Program), parse (tokenize text) = .ok p → p.WellFormed) ∧
    (∀ p : Program, p.WellFormed →
      ∃ text, p.formatOnto "" = .ok text ∧ anomalies (Bytes.ofString text) = [] ∧
        ∃ q, parse (tokenize (Bytes.ofString text)) = .ok q ∧ q.erase = p.erase) ∧
    (∀ (source : Bytes) (p : Program), parse (tokenize source) = .ok p →
      ∃ text q, p.formatOnto "" = .ok text ∧ parse (tokenize (Bytes.ofString text)) = .ok q ∧
        q.formatOnto "" = .ok text) := by
  refine ⟨fun text p => wellFormed_of_parse, fun p hp => ?_, fun source p hp => ?_⟩
  · obtain ⟨text, htext, hwritten⟩ := Printer.format_written hp
    exact ⟨text, htext, parse_of_written hwritten⟩
  · obtain ⟨text, htext, hwritten⟩ := Printer.format_written (wellFormed_of_parse hp)
    -- the two trees differ in places only, which the text does not show
    obtain ⟨-, q, hq, herase⟩ := parse_of_written hwritten
    exact ⟨text, q, htext, hq, by rw [Program.formatOnto_congr herase, htext]⟩

/-- Operators that lean to the right, and a branch with nothing but an else
part. -/
def leaning : Program where
  pos := 7
  decls := [⟨3, .int, ["a", "b"]⟩, ⟨1, .real, ["_x1"]⟩]
  stmts :=
    [.loop 2
      (.bin 5 .le (.bin 5 .sub (.var 5 "a") (.bin 9 .sub (.var 4 "b") (.lit 4 "1")))
        (.bin 8 .mul (.lit 6 "2.50") (.bin 6 .add (.var 6 "a") (.var 6 "b"))))
      [.branch 1 (.bin 0 .eq (.var 0 "a") (.var 0 "b")) []
        [.assign 0 "_x1" (.bin 0 .pow (.var 0 "a") (.bin 0 .pow (.var 0 "b") (.var 0 "a")))]]]

theorem leaning_wellFormed : leaning.WellFormed := by
  have ha : IsName "a" := by decide
  have hb : IsName "b" := by decide
  have hx : IsName "_x1" := by decide
  have hone : IsNumeral "1" := .inl ⟨by simp, rfl⟩
  have hhalf : IsNumeral "2.50" :=
    .inr ⟨['2'], ['5', '0'], ⟨by simp, rfl⟩, ⟨by simp, rfl⟩, rfl⟩
  constructor
  · intro d hd
    simp only [leaning, List.mem_cons, List.not_mem_nil, or_false] at hd
    rcases hd with rfl | rfl
    · exact ⟨.inl rfl, by simp, by simpa using ⟨ha, hb⟩⟩
    · exact ⟨.inr rfl, by simp, by simpa using hx⟩
  · refine .loop (.compare rfl (.bin rfl (.var ha) (.bin rfl (.var hb) (.lit hone)))
      (.bin rfl (.lit hhalf) (.bin rfl (.var ha) (.var hb)))) ?_ .nil
    refine .branch (.compare rfl (.var ha) (.var hb)) .nil ?_ .nil
    exact .assign hx (.bin rfl (.var ha) (.bin rfl (.var hb) (.var ha))) .nil

def leaningText : String :=
  "var\n\tint a, b;\n\treal _x1;\n\nwhile (a - (b - 1) <= 2.50 * (a + b)) \x7b\n" ++
    "\tif (a == b) \x7b\n\t\x7d else \x7b\n\t\t_x1 = a ^ (b ^ a);\n\t\x7d\n\x7d\n"

theorem leaning_reads_back :
    leaning.WellFormed ∧ leaning.formatOnto "" = .ok leaningText ∧
      anomalies (Bytes.ofString leaningText) = [] ∧
      ∃ q, parse (tokenize (Bytes.ofString leaningText)) = .ok q ∧ q.erase = leaning.erase := by
  obtain ⟨text, htext, hreads⟩ := parse_format_inverse.2.1 leaning leaning_wellFormed
  have hformat : leaning.formatOnto "" = .ok leaningText := rfl
  rw [hformat] at htext
  cases htext
  exact ⟨leaning_wellFormed, hformat, hreads⟩

end ThreeAddress
