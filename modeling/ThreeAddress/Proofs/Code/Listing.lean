import ThreeAddress.Code.Basic

/-!
# Reading a listing back

The line of an instruction shows its texts and nothing else: not the numbers of
temporaries and labels, and not whether an operand is a temporary, a name or a
literal. `Instr.face` is what is left. As long as no text holds a blank or the
end of a line, that much can be read back off the line, and the faces of all
instructions off the listing (`Code.ofListing_listing`).
-/

namespace ThreeAddress

/-! ## What a line shows -/

/-- The instruction as its line shows it: operands are bare texts, temporaries
and labels bare names. -/
def Instr.face : Instr → Instr
  | .decl ty name => .decl ty name
  | .copy dst src => .copy dst (.var src.text)
  | .binop dst op l r => .binop ⟨0, dst.name⟩ op (.var l.text) (.var r.text)
  | .mark l => .mark ⟨0, l.name⟩
  | .goto l => .goto ⟨0, l.name⟩
  | .ifFalse x l => .ifFalse (.var x.text) ⟨0, l.name⟩
  | .missing => .missing

/-- A text that holds neither a blank nor the end of a line. -/
def Unbroken (s : String) : Prop := ' ' ∉ s.toList ∧ '\n' ∉ s.toList

instance (s : String) : Decidable (Unbroken s) := inferInstanceAs (Decidable (_ ∧ _))

theorem Unbroken.append {s t : String} (hs : Unbroken s) (ht : Unbroken t) : Unbroken (s ++ t) := by
  simp only [Unbroken, String.toList_append, List.mem_append, not_or]
  exact ⟨⟨hs.1, ht.1⟩, hs.2, ht.2⟩

theorem newline_not_mem_intercalate {ws : List String} (h : ∀ w ∈ ws, Unbroken w) :
    '\n' ∉ (" ".intercalate ws).toList := by
  rw [String.toList_intercalate]
  induction ws with
  | nil => simp
  | cons w rest ih =>
      obtain ⟨hw, hrest⟩ := List.forall_mem_cons.mp h
      cases rest with
      | nil => simpa using hw.2
      | cons w' rest =>
          have hmore := ih hrest
          simp_all [List.intercalate_cons_cons, hw.2]

/-- Instructions of the language whose texts are unbroken. -/
inductive Instr.Legible : Instr → Prop
  | decl {ty : Ty} {name : String} : ty = .int ∨ ty = .real → Unbroken name →
      Legible (.decl ty name)
  | copy {dst : String} {src : Operand} : Unbroken dst → Unbroken src.text →
      Legible (.copy dst src)
  | binop {dst : Temp} {op : Op} {l r : Operand} : op.isValid = true → Unbroken dst.name →
      Unbroken l.text → Unbroken r.text → Legible (.binop dst op l r)
  | mark {l : Label} : Unbroken l.name → Legible (.mark l)
  | goto {l : Label} : Unbroken l.name → Legible (.goto l)
  | ifFalse {x : Operand} {l : Label} : Unbroken x.text → Unbroken l.name →
      Legible (.ifFalse x l)

/-! ## Words of a line -/

namespace Instr

/-- What the line of an instruction has between blanks. -/
def words : Instr → List String
  | .decl ty name => [ty.name, name ++ ";"]
  | .copy dst src => [dst, "=", src.text ++ ";"]
  | .binop dst op l r => [dst.name, "=", l.text, op.symbol, r.text ++ ";"]
  | .mark l => [l.name ++ ":"]
  | .goto l => ["goto", l.name ++ ";"]
  | .ifFalse x l => ["if", x.text, "==", "0", "goto", l.name ++ ";"]
  | .missing => ["<nil>"]

theorem line_eq_intercalate (x : Instr) : x.line = " ".intercalate x.words := by
  refine String.toList_inj.mp ?_
  cases x <;> simp [line, words]

end Instr

theorem unbroken_symbol {op : Op} (h : op.isValid = true) : Unbroken op.symbol := by
  cases op with
  | other => cases h
  | _ => decide

theorem Instr.Legible.unbroken {x : Instr} (h : x.Legible) : ∀ w ∈ x.words, Unbroken w := by
  have hsemicolon : Unbroken ";" := by decide
  cases h with
  | @decl ty name hty hname =>
      have hword : Unbroken ty.name := by
        rcases hty with rfl | rfl <;> decide
      simp only [words, List.forall_mem_cons]
      exact ⟨hword, hname.append hsemicolon, by simp⟩
  | copy hdst hsrc =>
      simp only [words, List.forall_mem_cons]
      exact ⟨hdst, by decide, hsrc.append hsemicolon, by simp⟩
  | binop hop hdst hl hr =>
      simp only [words, List.forall_mem_cons]
      exact ⟨hdst, by decide, hl, unbroken_symbol hop, hr.append hsemicolon, by simp⟩
  | mark hl =>
      simp only [words, List.forall_mem_cons]
      exact ⟨hl.append (by decide), by simp⟩
  | goto hl =>
      simp only [words, List.forall_mem_cons]
      exact ⟨by decide, hl.append hsemicolon, by simp⟩
  | ifFalse hx hl =>
      simp only [words, List.forall_mem_cons]
      exact ⟨by decide, hx, by decide, by decide, by decide, hl.append hsemicolon, by simp⟩

/-! ## Reading -/

/-- The operator written that way. -/
def Op.ofSymbol (s : String) : Op := (Op.listed.find? (·.symbol == s)).getD .add

theorem Op.ofSymbol_symbol {op : Op} (h : op.isValid = true) : Op.ofSymbol op.symbol = op := by
  cases op with
  | other => cases h
  | _ => rfl

/-- The text without its last character. -/
def chopped (s : String) : String := String.ofList s.toList.dropLast

namespace Instr

/-- The instruction with the given words. How many there are tells most kinds
apart; a declaration and a jump both have two. -/
def ofWords : List String → Instr
  | [l] => .mark ⟨0, chopped l⟩
  | [w, name] =>
    if w = "goto" then .goto ⟨0, chopped name⟩
    else .decl (if w = "int" then .int else .real) (chopped name)
  | [dst, _, src] => .copy dst (.var (chopped src))
  | [dst, _, l, op, r] => .binop ⟨0, dst⟩ (.ofSymbol op) (.var l) (.var (chopped r))
  | [_, x, _, _, _, l] => .ifFalse (.var x) ⟨0, chopped l⟩
  | _ => .missing

theorem ofWords_words {x : Instr} (h : x.Legible) : ofWords x.words = x.face := by
  cases h with
  | decl hty _ => rcases hty with rfl | rfl <;> simp [words, ofWords, face, chopped, Ty.name]
  | binop hop => simp [words, ofWords, face, chopped, Op.ofSymbol_symbol hop]
  | copy | mark | goto | ifFalse => simp [words, ofWords, face, chopped]

/-- The instruction on the line. -/
def ofLine (line : List Char) : Instr := ofWords ((line.splitOn ' ').map String.ofList)

theorem ofLine_line {x : Instr} (h : x.Legible) : ofLine x.line.toList = x.face := by
  have hsplit : x.line.toList.splitOn ' ' = x.words.map String.toList := by
    rw [line_eq_intercalate, String.toList_intercalate]
    refine List.splitOn_intercalate ' ' (List.forall_mem_map.mpr fun w hw => ?_) ?_
    · exact (h.unbroken w hw).1
    · cases x <;> simp [words]
  simp [ofLine, hsplit, ofWords_words h, Function.comp_def]

theorem Legible.newline_not_mem {x : Instr} (h : x.Legible) : '\n' ∉ x.line.toList := by
  rw [line_eq_intercalate]
  exact newline_not_mem_intercalate h.unbroken

end Instr

namespace Code

/-- The code a listing shows. -/
def ofListing (text : String) : Code := (text.toList.splitOn '\n').dropLast.map Instr.ofLine

/-- Of the text it is added to, a listing keeps everything and looks at nothing. -/
theorem listingOnto_eq (text : String) (code : Code) :
    code.listingOnto text = text ++ code.listing := by
  induction code generalizing text with
  | nil => exact String.append_empty.symm
  | cons x rest ih =>
      show listingOnto (text ++ x.line ++ "\n") rest = text ++ listingOnto ("" ++ x.line ++ "\n") rest
      rw [ih, ih ("" ++ x.line ++ "\n"), String.empty_append]
      simp only [String.append_assoc]

theorem listing_cons (x : Instr) (rest : Code) :
    listing (x :: rest) = x.line ++ "\n" ++ rest.listing := by
  show listingOnto ("" ++ x.line ++ "\n") rest = _
  rw [listingOnto_eq, String.empty_append]

theorem toList_listing (code : Code) :
    code.listing.toList = ['\n'].intercalate (code.map (·.line.toList) ++ [[]]) := by
  induction code with
  | nil => rfl
  | cons x rest ih =>
      rw [listing_cons, String.toList_append, ih]
      cases rest <;> simp [List.intercalate_cons_cons]

/-- The listing shows the face of every instruction. -/
theorem ofListing_listing {code : Code} (h : ∀ x ∈ code, x.Legible) :
    ofListing code.listing = code.map Instr.face := by
  have hsplit : code.listing.toList.splitOn '\n' = code.map (·.line.toList) ++ [[]] := by
    rw [toList_listing]
    refine List.splitOn_intercalate '\n' ?_ (by simp)
    simp only [List.forall_mem_append, List.forall_mem_map]
    exact ⟨fun x hx => (h x hx).newline_not_mem, by simp⟩
  rw [ofListing, hsplit, List.dropLast_concat, List.map_map]
  exact List.map_congr_left fun x hx => Instr.ofLine_line (h x hx)

end Code

end ThreeAddress
