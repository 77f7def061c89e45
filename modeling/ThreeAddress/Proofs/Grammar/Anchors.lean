import ThreeAddress.Proofs.Format.Shortest
import ThreeAddress.Proofs.Grammar.Blame
import ThreeAddress.Proofs.Grammar.Placement
import ThreeAddress.Proofs.Program.Faults

/-!
# Trees anchored in their texts

A declaration, a statement, a name and a number each have a word to be read at
their offset: the type, the name that is assigned, the keyword, or the whole leaf.
These anchors, in the order of a walk over the tree, are among the tokens of the
program, in the order of the tokens. So whatever holds of the tokens of a text
holds of the tree: each word is read where its node stands, and the nodes stand one
behind the other.
-/

namespace ThreeAddress

/-! ## Anchors -/

/-- An offset and the word to be read there. -/
structure Anchor where
  pos : Int
  word : String

/-- The text reads the word at the offset. -/
def Anchor.ReadIn (text : Bytes) (a : Anchor) : Prop :=
  ∃ front back, text = front ++ Bytes.ofString a.word ++ back ∧ a.pos = front.length

def Token.anchor (t : Token) : Anchor := ⟨t.loc.offset, t.spelling.2⟩

def Decl.anchor (d : Decl) : Anchor := ⟨d.pos, d.ty.name⟩

/-- The anchor of a node; operators and holes have none. -/
def Node.anchor? : Node → Option Anchor
  | .stmt (.assign pos name _) => some ⟨pos, name⟩
  | .stmt (.loop pos _ _) => some ⟨pos, Clause.loop.word⟩
  | .stmt (.branch pos _ _ _) => some ⟨pos, Clause.branch.word⟩
  | .expr (.var pos name) => some ⟨pos, name⟩
  | .expr (.lit pos text) => some ⟨pos, text⟩
  | .expr (.bin ..) | .expr .missing | .stmt .missing => none

/-- The anchors of the nodes met on a walk. -/
def anchorsOf (vs : List Visit) : List Anchor := vs.filterMap (·.node.anchor?)

/-- The anchors of a program in pre-order: the declarations, and then the statements,
each before its value or condition and its blocks. -/
def Program.anchors (p : Program) : List Anchor := p.decls.map Decl.anchor ++ anchorsOf p.walk

@[simp] theorem anchorsOf_under (site : Site) (vs : List Visit) :
    anchorsOf (vs.map (.under site)) = anchorsOf vs := by
  rw [anchorsOf, List.filterMap_map]
  rfl

@[simp] theorem anchorsOf_append (vs us : List Visit) :
    anchorsOf (vs ++ us) = anchorsOf vs ++ anchorsOf us :=
  List.filterMap_append

section Walks

variable {pos : Int} {x : Expr}

theorem anchorsOf_bin (op : Op) (l r : Expr) :
    anchorsOf (Expr.bin pos op l r).walk = anchorsOf l.walk ++ anchorsOf r.walk := by
  rw [Expr.walk, ← anchorsOf_under .left l.walk, ← anchorsOf_under .right r.walk,
    ← anchorsOf_append]
  rfl

theorem anchorsOf_assign (name : String) :
    anchorsOf (Stmt.assign pos name x).walk = ⟨pos, name⟩ :: anchorsOf x.walk := by
  rw [Stmt.walk, ← anchorsOf_under (.assignment name) x.walk]
  rfl

theorem anchorsOf_loop (body : List Stmt) :
    anchorsOf (Stmt.loop pos x body).walk =
      ⟨pos, "while"⟩ :: (anchorsOf x.walk ++ anchorsOf (Stmt.walkAll body)) := by
  rw [Stmt.walk, ← anchorsOf_under (.condition .loop) x.walk,
    ← anchorsOf_under .loopBody (Stmt.walkAll body), ← anchorsOf_append]
  rfl

theorem anchorsOf_branch (onTrue onFalse : List Stmt) :
    anchorsOf (Stmt.branch pos x onTrue onFalse).walk =
      ⟨pos, "if"⟩ :: (anchorsOf x.walk ++
        (anchorsOf (Stmt.walkAll onTrue) ++ anchorsOf (Stmt.walkAll onFalse))) := by
  rw [Stmt.walk, ← anchorsOf_under (.condition .branch) x.walk,
    ← anchorsOf_under .thenBlock (Stmt.walkAll onTrue),
    ← anchorsOf_under .elseBlock (Stmt.walkAll onFalse), ← anchorsOf_append, ← anchorsOf_append]
  rfl

end Walks

/-! ## Anchors are tokens -/

/-- The anchors are among the tokens, in the same order. -/
def Anchored (w : List Token) (as : List Anchor) : Prop := as.Sublist (w.map Token.anchor)

namespace Anchored

variable {w v : List Token} {as bs : List Anchor}

theorem none (w : List Token) : Anchored w [] := List.nil_sublist _

theorem skip (h : Anchored w as) (t : Token) : Anchored (t :: w) as := h.cons _

theorem keep {t : Token} {a : Anchor} (ht : t.anchor = a) (h : Anchored w as) :
    Anchored (t :: w) (a :: as) := by
  rw [Anchored, List.map_cons, ht]
  exact h.cons_cons a

theorem append (hw : Anchored w as) (hv : Anchored v bs) : Anchored (w ++ v) (as ++ bs) := by
  rw [Anchored, List.map_append]
  exact List.Sublist.append hw hv

theorem ended (h : Anchored w as) (v : List Token) : Anchored (w ++ v) as := by
  rw [← List.append_nil as]
  exact h.append (none v)

theorem enclosed (h : Anchored w as) (opening closing : Token) :
    Anchored (opening :: (w ++ [closing])) as :=
  (h.ended [closing]).skip opening

end Anchored

theorem Token.anchor_of_ident {t : Token} (h : t.kind = .ident) :
    t.anchor = ⟨t.loc.offset, t.text⟩ := by
  rw [anchor, spelling_of_ident h]

theorem Token.anchor_of_number {t : Token} (h : t.kind = .number) :
    t.anchor = ⟨t.loc.offset, t.text⟩ := by
  rw [anchor, spelling_of_number h]

theorem Token.anchor_of_kind {t : Token} {k : Kind} (h : t.kind = k)
    (hk : k ≠ .ident ∧ k ≠ .number := by decide) : t.anchor = ⟨t.loc.offset, k.name⟩ := by
  rw [anchor, spelling_of_kind h hk, Kind.spelling]

namespace Grammar

variable {start : List Token → Option Int}

theorem PhraseAt.anchored {level : Level} {w : List Token} {x : Expr}
    (h : PhraseAt start level w x) : Anchored w (anchorsOf x.walk) := by
  induction h with
  | ident hkind => exact .keep (Token.anchor_of_ident hkind) (.none [])
  | number hkind => exact .keep (Token.anchor_of_number hkind) (.none [])
  | group _ _ _ ih => exact ih.enclosed _ _
  | term _ ih | expr _ ih => exact ih
  | product _ _ _ _ ihx ihy | sum _ _ _ _ ihx ihy =>
      rw [anchorsOf_bin]
      exact ihx.append (ihy.skip _)

theorem ConditionAt.anchored {w : List Token} {x : Expr} (h : ConditionAt start w x) :
    Anchored w (anchorsOf x.walk) := by
  cases h with
  | compare _ hx _ hy =>
      rw [anchorsOf_bin]
      exact (hx.anchored.append (hy.anchored.skip _)).enclosed _ _

/-- The anchors of what a phrase stands for. -/
def Symbol.anchors : (symbol : Symbol) → symbol.Tree → List Anchor
  | .stmt, s => anchorsOf s.walk
  | .stmts, ss | .block, ss => anchorsOf (Stmt.walkAll ss)

theorem DerivesAt.anchored {symbol : Symbol} {w : List Token} {tree : symbol.Tree}
    (h : DerivesAt start symbol w tree) : Anchored w (symbol.anchors tree) := by
  induction h with
  | assign hname _ hx _ =>
      rw [Symbol.anchors, anchorsOf_assign]
      exact .keep (Token.anchor_of_ident hname) (hx.anchored.enclosed _ _)
  | loop hkey hx _ ih =>
      rw [Symbol.anchors, anchorsOf_loop]
      exact .keep (Token.anchor_of_kind hkey) (hx.anchored.append ih)
  | branch hkey hx _ ih =>
      have hempty : anchorsOf (Stmt.walkAll []) = [] := rfl
      rw [Symbol.anchors, anchorsOf_branch, hempty, List.append_nil]
      exact .keep (Token.anchor_of_kind hkey) (hx.anchored.append ih)
  | branchElse hkey hx _ _ _ ihTrue ihFalse =>
      rw [Symbol.anchors, anchorsOf_branch]
      exact .keep (Token.anchor_of_kind hkey) (hx.anchored.append (ihTrue.append (ihFalse.skip _)))
  | nil => exact .none []
  | cons _ _ ihs ihss =>
      rw [Symbol.anchors, Stmt.walkAll, anchorsOf_append]
      exact ihs.append ihss
  | block _ _ _ ih => exact ih.enclosed _ _

theorem DeclarationsAt.anchored {w : List Token} {ds : List Decl} (h : DeclarationsAt w ds) :
    Anchored w (ds.map Decl.anchor) := by
  induction h with
  | nil => exact .none []
  | @cons t semicolon ty w v names ds hty _ _ _ ih =>
      have hword : t.anchor = Decl.anchor ⟨t.loc.offset, ty, names⟩ := by
        cases hkind : t.kind <;> rw [hkind] at hty <;> cases hty <;>
          exact Token.anchor_of_kind hkind
      exact .keep hword ((Anchored.none w).append (ih.skip semicolon))

theorem SentenceAt.anchored {w : List Token} {p : Program} (h : SentenceAt start w p) :
    Anchored w p.anchors := by
  cases h with
  | plain hbody =>
      rw [Program.anchors, Program.walk, anchorsOf_under]
      exact hbody.anchored
  | declared _ hds hbody =>
      rw [Program.anchors, Program.walk, anchorsOf_under]
      exact (hds.anchored.append hbody.anchored).skip _

end Grammar

/-! ## Tokens of a text -/

/-- A token other than the end of input is read where it stands. -/
theorem Token.anchor_readIn {text : Bytes} {t : Token} (ht : t ∈ tokenize text)
    (hkind : t.kind ≠ .eof) : t.anchor.ReadIn text := by
  obtain ⟨m, hstart, hm⟩ := standsAt_of_mem_items (token_mem_items.mpr ht)
    (by rintro _ ⟨⟩; exact hkind)
  have hfits := hm.fits
  rw [anchor, spelling_of_mem_tokenize ht hkind]
  refine ⟨text.take m, text.drop (m + (Item.token t).width text), ?_, ?_⟩
  · rw [(hm.token t rfl).2, List.append_assoc, ← List.drop_drop, List.take_append_drop,
      List.take_append_drop]
  · rw [List.length_take, Nat.min_eq_left (by omega)]
    exact hstart

/-- Tokens stand one behind the other. -/
theorem tokenize_increasing (text : Bytes) :
    (tokenize text).Pairwise fun t t' => t.loc.offset < t'.loc.offset := by
  obtain ⟨hlaid, htokens⟩ := laid_items text
  rw [← htokens, List.pairwise_filterMap]
  refine hlaid.ordered.imp ?_
  rintro x y ⟨hlt, -⟩ t ht t' ht'
  obtain rfl := Item.token?_eq_some_iff.mp ht
  obtain rfl := Item.token?_eq_some_iff.mp ht'
  exact hlt

/-- The tree of a text is anchored in it. The word of every declaration, statement,
name and number of the tree is read where the tree says, and in pre-order they stand
one behind the other. -/
theorem trees_are_anchored_in_texts {text : Bytes} {p : Program}
    (h : parse (tokenize text) = .ok p) :
    (∀ a ∈ p.anchors, a.ReadIn text) ∧ p.anchors.Pairwise fun a b => a.pos < b.pos := by
  obtain ⟨hread, hpos⟩ := program_of_parse h
  have hanchored := (Parser.program_placed hread hpos).anchored
  constructor
  · intro a ha
    obtain ⟨t, ht, rfl⟩ := List.mem_map.mp (hanchored.subset ha)
    exact Token.anchor_readIn (mem_of_mem_sentence ht) (proper_sentence _ t ht)
  · refine List.Pairwise.sublist hanchored ?_
    rw [List.pairwise_map]
    exact (tokenize_increasing text).sublist (List.takeWhile_sublist _)

def nest : Bytes :=
  Bytes.ofString "var int n; while ((n) < 9) \x7b if (n == 2) \x7b\x7d else \x7b n = n * 2.5; \x7d \x7d"

/-- The tree of `nest`. -/
def nestTree : Program :=
  ⟨0, [⟨4, .int, ["n"]⟩],
    [.loop 11 (.bin 19 .lt (.var 19 "n") (.lit 24 "9"))
      [.branch 29 (.bin 33 .eq (.var 33 "n") (.lit 38 "2")) []
        [.assign 51 "n" (.bin 55 .mul (.var 55 "n") (.lit 59 "2.5"))]]]⟩

theorem nest_is_anchored :
    parse (tokenize nest) = .ok nestTree ∧
    nestTree.anchors =
      [⟨4, "int"⟩, ⟨11, "while"⟩, ⟨19, "n"⟩, ⟨24, "9"⟩, ⟨29, "if"⟩, ⟨33, "n"⟩, ⟨38, "2"⟩,
        ⟨51, "n"⟩, ⟨55, "n"⟩, ⟨59, "2.5"⟩] ∧
    (∀ a ∈ nestTree.anchors, a.ReadIn nest) ∧
    nestTree.anchors.Pairwise fun a b => a.pos < b.pos := by
  have hread : parse (tokenize nest) = .ok nestTree := by decide +kernel
  exact ⟨hread, rfl, trees_are_anchored_in_texts hread⟩

end ThreeAddress
