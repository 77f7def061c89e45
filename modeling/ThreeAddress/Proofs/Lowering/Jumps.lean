import Mathlib.Data.List.Perm.Subperm
import Mathlib.Logic.Relation
import ThreeAddress.Proofs.Code.Flow
import ThreeAddress.Proofs.Lowering.Labels
import ThreeAddress.Proofs.Lowering.Verified

/-!
# Where lowered code jumps

Control flows through all of lowered code: from the front it may come to every
instruction, and from every instruction to the end (`Code.Passable`). Pieces of
code that follow one another keep this, and so do the jumps of a loop or a branch,
which lead from one of its parts to the edge of another; empty parts are no
exception.

Every label is jumped to once, as it is placed once. So the jump to a label and its
mark are those in the code of its own loop or branch, where it is seen which of
them comes first: only the jump back to the start of a loop comes after its mark.
-/

namespace ThreeAddress

namespace Code

/-- Control may come from the instruction at `i` to the one at `j`. -/
def Reaches (code : Code) : Nat → Nat → Prop := Relation.ReflTransGen code.Flow

variable {code more before piece after : Code} {i j : Nat}

/-! ## Pieces of code -/

theorem getElem?_within {x : Instr} (h : piece[i]? = some x) (before after : Code) :
    (before ++ (piece ++ after))[before.length + i]? = some x := by
  obtain ⟨hi, -⟩ := List.getElem?_eq_some_iff.mp h
  rw [List.getElem?_append_right (by omega), Nat.add_sub_cancel_left,
    List.getElem?_append_left hi]
  exact h

theorem JumpsTo.within (h : piece.JumpsTo i j) (before after : Code) :
    (before ++ (piece ++ after)).JumpsTo (before.length + i) (before.length + j) := by
  obtain ⟨x, l, m, hx, hl, hm, hid⟩ := h
  exact ⟨x, l, m, getElem?_within hx before after, hl, getElem?_within hm before after, hid⟩

theorem Flow.within (h : piece.Flow i j) (before after : Code) :
    (before ++ (piece ++ after)).Flow (before.length + i) (before.length + j) := by
  cases h with
  | next hx hfalls => exact .next (getElem?_within hx before after) hfalls
  | jump hjump => exact .jump (hjump.within before after)

/-- Control takes the same ways through a piece of code wherever it stands. -/
theorem Reaches.within (h : piece.Reaches i j) (before after : Code) :
    (before ++ (piece ++ after)).Reaches (before.length + i) (before.length + j) := by
  induction h with
  | refl => exact .refl
  | tail _ hstep ih => exact ih.tail (hstep.within before after)

/-- Control may come from the front to every place in the code, and from every
place to the end. -/
def Passable (code : Code) : Prop :=
  ∀ i ≤ code.length, code.Reaches 0 i ∧ code.Reaches i code.length

namespace Passable

theorem nil : Passable [] := by
  intro i hi
  obtain rfl : i = 0 := Nat.le_zero.mp hi
  exact ⟨.refl, .refl⟩

theorem single {x : Instr} (hx : x.fallsThrough = true) : Passable [x] := by
  have hstep : Reaches [x] 0 1 := .single (.next rfl hx)
  intro i hi
  rcases Nat.le_one_iff_eq_zero_or_eq_one.mp hi with rfl | rfl
  · exact ⟨.refl, hstep⟩
  · exact ⟨hstep, .refl⟩

theorem append (h : Passable code) (h' : Passable more) : Passable (code ++ more) := by
  have hfront : ∀ i j, code.Reaches i j → (code ++ more).Reaches i j := by
    intro i j hij
    simpa using hij.within [] more
  have hback : ∀ i j, more.Reaches i j →
      (code ++ more).Reaches (code.length + i) (code.length + j) := by
    intro i j hij
    simpa using hij.within code []
  rw [Passable, List.length_append]
  intro i hi
  rcases Nat.le_or_le i code.length with hle | hge
  · obtain ⟨hto, hfrom⟩ := h i hle
    exact ⟨hfront _ _ hto, (hfront _ _ hfrom).trans (hback _ _ (h' 0 (Nat.zero_le _)).2)⟩
  · obtain ⟨k, rfl⟩ := Nat.exists_eq_add_of_le hge
    obtain ⟨hto, hfrom⟩ := h' k (by omega)
    exact ⟨(hfront _ _ (h 0 (Nat.zero_le _)).2).trans (hback _ _ hto), hback _ _ hfrom⟩

theorem of_fallsThrough (h : ∀ x ∈ code, x.fallsThrough = true) : Passable code := by
  induction code with
  | nil => exact nil
  | cons x code ih =>
      obtain ⟨hx, hcode⟩ := List.forall_mem_cons.mp h
      exact (single hx).append (ih hcode)

theorem of_straight (h : code.Straight) : Passable code := by
  refine of_fallsThrough fun x hx => ?_
  have hcontrol := h x hx
  cases x with
  | mark | goto | ifFalse => cases hcontrol
  | decl | copy | binop | missing => rfl

/-- A piece that can be passed, seen from the code around it. -/
theorem within (h : Passable piece) (before after : Code) {i : Nat} (hi : before.length ≤ i)
    (hi' : i ≤ before.length + piece.length) :
    (before ++ (piece ++ after)).Reaches before.length i ∧
      (before ++ (piece ++ after)).Reaches i (before.length + piece.length) := by
  obtain ⟨k, rfl⟩ := Nat.exists_eq_add_of_le hi
  obtain ⟨hto, hfrom⟩ := h k (by omega)
  exact ⟨hto.within before after, hfrom.within before after⟩

/-- A test, a body and a rest, as a loop and a branch have them. The test may skip
the body, and the body ends with an instruction that leads back to the test or on to
the end. -/
theorem fork {test body rest : Code} {l : Label} {y : Instr} (htest : Passable test)
    (hbody : Passable body) (hrest : Passable rest) (hmark : rest[0]? = some (.mark l))
    (x : Operand)
    (hturn : let code := test ++ .ifFalse x l :: (body ++ y :: rest)
      let turn := test.length + 1 + body.length
      code.Reaches turn 0 ∨ code.Reaches turn code.length) :
    Passable (test ++ .ifFalse x l :: (body ++ y :: rest)) := by
  dsimp only at hturn
  generalize hcode : test ++ .ifFalse x l :: (body ++ y :: rest) = code at hturn ⊢
  let exit := test.length
  let turn := test.length + 1 + body.length
  have hexit : code[exit]? = some (.ifFalse x l) := by grind
  have hskip : code[turn + 1]? = some (.mark l) := by grind
  have hlen : code.length = turn + 1 + rest.length := by grind
  -- the three parts in place
  have hfirst : ∀ i ≤ exit, code.Reaches 0 i ∧ code.Reaches i exit := by
    intro i hi
    have h := htest.within [] (.ifFalse x l :: (body ++ y :: rest)) (Nat.zero_le i)
      (by simpa using hi)
    simpa [hcode] using h
  have hsecond : ∀ i, exit + 1 ≤ i → i ≤ turn →
      code.Reaches (exit + 1) i ∧ code.Reaches i turn := by
    intro i hi hi'
    have h := hbody.within (test ++ [.ifFalse x l]) (y :: rest) (i := i) (by simpa using hi)
      (by simpa using hi')
    simpa [hcode] using h
  have hthird : ∀ i, turn + 1 ≤ i → i ≤ code.length →
      code.Reaches (turn + 1) i ∧ code.Reaches i code.length := by
    intro i hi hi'
    have hbefore : (test ++ .ifFalse x l :: (body ++ [y])).length = turn + 1 := by grind
    have h := hrest.within (test ++ .ifFalse x l :: (body ++ [y])) [] (i := i) (by omega)
      (by omega)
    rw [hbefore, ← hlen] at h
    simpa [hcode] using h
  -- the ways between them
  have henter : code.Reaches exit (exit + 1) := .single (.next hexit rfl)
  have hleave : code.Reaches exit (turn + 1) := .single (.jump ⟨_, _, _, hexit, rfl, hskip, rfl⟩)
  have hfront : code.Reaches 0 exit := (hfirst 0 (Nat.zero_le _)).2
  have hend : code.Reaches exit code.length :=
    hleave.trans (hthird (turn + 1) (Nat.le_refl _) (by omega)).2
  have hturn' : code.Reaches turn code.length := by
    rcases hturn with hagain | hon
    · exact (hagain.trans hfront).trans hend
    · exact hon
  intro i hi
  rcases Nat.lt_or_ge exit i with hlt | hle
  · rcases Nat.lt_or_ge turn i with hlt' | hle'
    · obtain ⟨hto, hfrom⟩ := hthird i hlt' hi
      exact ⟨(hfront.trans hleave).trans hto, hfrom⟩
    · obtain ⟨hto, hfrom⟩ := hsecond i hlt hle'
      exact ⟨(hfront.trans henter).trans hto, hfrom.trans hturn'⟩
  · obtain ⟨hto, hfrom⟩ := hfirst i hle
    exact ⟨hto, hfrom.trans hend⟩

theorem loop {test inner : Code} (first last : Label) (htest : Passable test)
    (hinner : Passable inner) (x : Operand) :
    Passable (.mark first :: (test ++ .ifFalse x last :: (inner ++ [.goto first, .mark last]))) := by
  have hhead : Passable (.mark first :: test) := (single rfl).append htest
  refine fork hhead hinner (single rfl) rfl x (.inl ?_)
  -- the body leads back to the mark in front of the test
  exact .single (.jump ⟨.goto first, first, first, by grind, rfl, by grind, rfl⟩)

theorem branch {test yes no : Code} (first last : Label) (htest : Passable test)
    (hyes : Passable yes) (hno : Passable no) (x : Operand) :
    Passable (test ++ .ifFalse x first ::
      (yes ++ .goto last :: .mark first :: (no ++ [.mark last]))) := by
  have helse : Passable (.mark first :: (no ++ [.mark last])) :=
    (single rfl).append (hno.append (single rfl))
  refine fork htest hyes helse rfl x (.inr ?_)
  -- the first block leads on to the last mark, over the second block
  generalize hcode : test ++ .ifFalse x first ::
    (yes ++ .goto last :: .mark first :: (no ++ [.mark last])) = code
  have hgoto : code[test.length + 1 + yes.length]? = some (.goto last) := by grind
  have hmark : code[test.length + 1 + yes.length + 2 + no.length]? = some (.mark last) := by grind
  have hlen : code.length = test.length + 1 + yes.length + 2 + no.length + 1 := by grind
  rw [hlen]
  exact .tail (.single (.jump ⟨_, _, _, hgoto, rfl, hmark, rfl⟩)) (.next hmark rfl)

end Passable

end Code

namespace Lowering

variable {s : Scope} {c c' : Counters} {code : Code}

theorem EmitsExpr.passable {e : Expr} {x : Operand} (h : EmitsExpr s e c code x c') :
    code.Passable := .of_straight h.pending.straight

theorem Emits.passable {ss : List Stmt} (h : Emits s ss c code c') : code.Passable := by
  induction h with
  | nil => exact .nil
  | assign pos name he _ ih => exact he.passable.append ((Code.Passable.single rfl).append ih)
  | @loop pos _ _ _ c _ _ _ _ _ _ x he _ _ ihB ih =>
      have hloop := Code.Passable.loop (s.opening .loop c) (s.closing .loop c) he.passable ihB x
      simpa using hloop.append ih
  | @branch pos _ _ _ _ c _ _ _ _ _ _ _ _ x he _ _ _ ihT ihF ih =>
      have hbranch := Code.Passable.branch (s.opening .otherwise c) (s.closing .otherwise c)
        he.passable ihT ihF x
      simpa using hbranch.append ih

theorem passable_of_lower {o : LowerOptions} {p : Program} {lowered : Lowered}
    (h : p.lower o = .ok lowered) : lowered.code.Passable := by
  obtain ⟨-, body, c, hemits, rfl⟩ := lower_eq_ok_iff.mp h
  cases o.noDecls with
  | true => exact hemits.passable
  | false =>
      have hdecls : Code.Passable (decls p.decls) := by
        refine .of_fallsThrough fun x hx => ?_
        obtain ⟨ty, name, rfl⟩ := eq_decl_of_mem_decls hx
        rfl
      exact hdecls.append hemits.passable

/-! ## One jump for each label -/

theorem Emits.length_jumps {ss : List Stmt} (h : Emits s ss c code c') :
    code.jumps.length = 2 * (Stmt.compoundsOf ss).length := by
  induction h with
  | nil => rfl
  | assign pos name he _ ih => simpa [he.jumps_eq_nil, Instr.jump?] using ih
  | loop pos he _ _ ihB ih =>
      simp [he.jumps_eq_nil, Instr.jump?, ihB, ih]
      omega
  | branch pos he _ _ _ ihT ihF ih =>
      simp [he.jumps_eq_nil, Instr.jump?, ihT, ihF, ih]
      omega

theorem Wraps.jumps {first last : Label} {st : Stmt} (h : Wraps s first last st code) :
    first ∈ code.jumps ∧ last ∈ code.jumps := by
  cases h with
  | loop | branch => simp [Instr.jump?]

/-- Every label is jumped to once: there are two jumps for each loop and branch, and
each of them jumps to both of its labels. -/
theorem nodup_jumps_of_lower {o : LowerOptions} {p : Program} {lowered : Lowered}
    (h : p.lower o = .ok lowered) : (lowered.code.jumps.map Label.id).Nodup := by
  have hlabelled := labelled_of_lower h
  have hlength : lowered.code.jumps.length = 2 * p.compounds.length := by
    obtain ⟨-, body, c, hemits, rfl⟩ := lower_eq_ok_iff.mp h
    have hnone : Code.jumps (if o.noDecls then [] else decls p.decls) = [] := by
      cases o.noDecls with
      | true => rfl
      | false => exact (parts_decls p.decls).2.2
    rw [Code.jumps_append, hnone]
    exact hemits.length_jumps
  have hall : ∀ k < 2 * p.compounds.length, (k : Int) ∈ lowered.code.jumps.map Label.id := by
    refine fun k hk => hlabelled.mem_ids (fun i st hholds => ?_) hk
    obtain ⟨before, own, after, hcode, hwraps, -⟩ := hholds
    obtain ⟨hfirst, hlast⟩ := hwraps.jumps
    rw [hcode]
    simp [hfirst, hlast]
  -- as many jumps as numbers, and no number missing: so no number twice
  have hnumbers : ((List.range (2 * p.compounds.length)).map (Nat.cast : ℕ → ℤ)).Nodup :=
    List.nodup_range.map fun _ _ => Int.ofNat_inj.mp
  have hsubset : (List.range (2 * p.compounds.length)).map (Nat.cast : ℕ → ℤ) ⊆
      lowered.code.jumps.map Label.id := by
    intro id hid
    obtain ⟨k, hk, rfl⟩ := List.mem_map.mp hid
    exact hall k (List.mem_range.mp hk)
  have hperm := (List.subperm_of_subset hnumbers hsubset).perm_of_length_le (by simp [hlength])
  exact hperm.nodup_iff.mp hnumbers

end Lowering

namespace Code

variable {code : Code} {i j : Nat}

/-- Two instructions with labels of one number are the same, if numbers do not come
twice among the labels. -/
theorem index_unique {pick : Instr → Option Label}
    (h : ((code.filterMap pick).map Label.id).Nodup) {x y : Instr} {l m : Label}
    (hx : code[i]? = some x) (hl : pick x = some l) (hy : code[j]? = some y)
    (hm : pick y = some m) (hid : l.id = m.id) : i = j := by
  have hpair : code.Pairwise fun a b =>
      ∀ l, pick a = some l → ∀ m, pick b = some m → l.id ≠ m.id :=
    List.pairwise_filterMap.mp (List.pairwise_map.mp h)
  rw [List.pairwise_iff_getElem] at hpair
  obtain ⟨hi, rfl⟩ := List.getElem?_eq_some_iff.mp hx
  obtain ⟨hj, rfl⟩ := List.getElem?_eq_some_iff.mp hy
  rcases Nat.lt_trichotomy i j with hlt | heq | hgt
  · exact absurd hid (hpair i j hi hj hlt l hl m hm)
  · exact heq
  · exact absurd hid.symm (hpair j i hj hi hgt m hm l hl)

/-- A jump to the label comes before its mark. -/
def JumpsAhead (code : Code) (l : Label) : Prop :=
  ∃ (i j : Nat) (x : Instr), i < j ∧ code[i]? = some x ∧ x.jump? = some l ∧
    code[j]? = some (.mark l)

/-- A jump back to the label comes after its mark. -/
def JumpsBack (code : Code) (l : Label) : Prop :=
  ∃ i j : Nat, j < i ∧ code[i]? = some (.goto l) ∧ code[j]? = some (.mark l)

theorem JumpsAhead.within {piece : Code} {l : Label} (h : piece.JumpsAhead l)
    (before after : Code) : (before ++ (piece ++ after)).JumpsAhead l := by
  obtain ⟨i, j, x, hij, hx, hl, hm⟩ := h
  exact ⟨_, _, x, Nat.add_lt_add_left hij _, getElem?_within hx before after, hl,
    getElem?_within hm before after⟩

theorem JumpsBack.within {piece : Code} {l : Label} (h : piece.JumpsBack l)
    (before after : Code) : (before ++ (piece ++ after)).JumpsBack l := by
  obtain ⟨i, j, hij, hx, hm⟩ := h
  exact ⟨_, _, Nat.add_lt_add_left hij _, getElem?_within hx before after,
    getElem?_within hm before after⟩

end Code

namespace Lowering

variable {s : Scope} {code : Code}

/-- The end of a loop or a branch lies ahead of the jump there; so does an else part,
and the start of a loop lies behind. -/
theorem Wraps.directions {first last : Label} {st : Stmt} (h : Wraps s first last st code) :
    (if st.isLoop then code.JumpsBack first else code.JumpsAhead first) ∧
      code.JumpsAhead last := by
  cases h with
  | @loop pos cond body c c₁ c₂ test inner x =>
      constructor
      · show Code.JumpsBack _ first
        exact ⟨test.length + inner.length + 2, 0, by omega, by grind, rfl⟩
      · exact ⟨test.length + 1, test.length + inner.length + 3, .ifFalse x last, by omega,
          by grind, rfl, by grind⟩
  | @branch pos cond onTrue onFalse c c₁ c₂ c₃ test yes no x =>
      constructor
      · show Code.JumpsAhead _ first
        exact ⟨test.length, test.length + yes.length + 2, .ifFalse x first, by omega, by grind, rfl,
          by grind⟩
      · exact ⟨test.length + yes.length + 1, test.length + yes.length + no.length + 3, .goto last,
          by omega, by grind, rfl, by grind⟩

theorem HoldsAt.directions {all : List Stmt} {i : Nat} {st : Stmt} (h : HoldsAt s all i st code) :
    (if st.isLoop then code.JumpsBack (openingOf s.namedLabels all i st)
      else code.JumpsAhead (openingOf s.namedLabels all i st)) ∧
      code.JumpsAhead (closingOf s.namedLabels i) := by
  obtain ⟨before, own, after, rfl, hwraps, -⟩ := h
  obtain ⟨hfirst, hlast⟩ := hwraps.directions
  refine ⟨?_, hlast.within before after⟩
  split at hfirst
  · rw [if_pos ‹_›]
    exact hfirst.within before after
  · rw [if_neg ‹_›]
    exact hfirst.within before after

end Lowering

/-! ## Whole programs -/

/-- Control flows through all of the code. Conditional jumps lead ahead, and the
jumps that lead back are those at the ends of loops. -/
structure Program.FlowsThrough (p : Program) (s : Lowering.Scope) (code : Code) : Prop where
  reached : ∀ i < code.length, code.Reaches 0 i
  ends : ∀ i < code.length, code.Reaches i code.length
  ahead : ∀ i x l, code[i]? = some (.ifFalse x l) →
    (∃ j, code.JumpsTo i j) ∧ ∀ j, code.JumpsTo i j → i < j
  back : ∀ i l, code[i]? = some (.goto l) → (∃ j, code.JumpsTo i j ∧ j ≤ i) →
    ∃ k st, p.compounds[k]? = some st ∧ st.isLoop = true ∧
      l = openingOf s.namedLabels p.compounds k st
  /-- The code of each loop starts with the mark of its first label, and one jump in
  all of the code leads back there. -/
  loops : ∀ k st, p.compounds[k]? = some st → st.isLoop = true →
    Lowering.HoldsAt s p.compounds k st code ∧
      ∃! i, code[i]? = some (.goto (openingOf s.namedLabels p.compounds k st)) ∧
        ∃ j, code.JumpsTo i j ∧ j < i ∧
          code[j]? = some (.mark (openingOf s.namedLabels p.compounds k st))

namespace Code

variable {code : Code} {i : Nat} {x : Instr} {l : Label}

theorem JumpsAhead.lt_of_jumpsTo (h : code.JumpsAhead l)
    (hjumps : (code.jumps.map Label.id).Nodup) (hmarks : (code.marks.map Label.id).Nodup)
    (hx : code[i]? = some x) (hl : x.jump? = some l) :
    (∃ j, code.JumpsTo i j) ∧ ∀ j, code.JumpsTo i j → i < j := by
  obtain ⟨i', j', x', hij, hx', hl', hm⟩ := h
  obtain rfl : i = i' := index_unique hjumps hx hl hx' hl' rfl
  refine ⟨⟨j', x, l, l, hx, hl, hm, rfl⟩, ?_⟩
  rintro j ⟨y, k, m, hy, hk, hj, hid⟩
  rw [hx] at hy
  cases hy
  rw [hl] at hk
  cases hk
  obtain rfl : j = j' := index_unique hmarks hj rfl hm rfl hid
  exact hij

end Code

namespace Lowering

variable {o : LowerOptions} {p : Program} {lowered : Lowered}

/-- A jump leads ahead, or its label is the first one of a loop. -/
theorem direction_of_lower (h : p.lower o = .ok lowered) {i : Nat} {x : Instr} {l : Label}
    (hx : lowered.code[i]? = some x) (hl : x.jump? = some l) :
    lowered.code.JumpsAhead l ∨
      ∃ k st, p.compounds[k]? = some st ∧ st.isLoop = true ∧
        l = openingOf o.namedLabels p.compounds k st ∧ lowered.code.JumpsBack l := by
  have hlabelled := labelled_of_lower h
  have hlabel : x.label? = some l := by
    cases x with
    | goto | ifFalse => exact hl
    | decl | copy | binop | mark | missing => cases hl
  have hmem : l ∈ lowered.code.labels :=
    List.mem_filterMap.mpr ⟨x, List.mem_of_getElem? hx, hlabel⟩
  obtain ⟨k, -, st, hst, hor⟩ := hlabelled.listed l hmem
  have hheld := hlabelled.held k st hst
  rw [Nat.zero_add] at hheld
  obtain ⟨hfirst, hlast⟩ := hheld.directions
  rcases hor with rfl | rfl
  · by_cases hloop : st.isLoop = true
    · rw [if_pos hloop] at hfirst
      exact .inr ⟨k, st, hst, hloop, rfl, hfirst⟩
    · rw [if_neg hloop] at hfirst
      exact .inl hfirst
  · exact .inl hlast

theorem flowsThrough_of_lower (h : p.lower o = .ok lowered) :
    p.FlowsThrough (o.scope p) lowered.code := by
  have hpassable := passable_of_lower h
  have hjumps := nodup_jumps_of_lower h
  obtain ⟨c, hfragment⟩ := fragment_of_lower h
  have hmarks := hfragment.markIds
  constructor
  · exact fun i hi => (hpassable i (Nat.le_of_lt hi)).1
  · exact fun i hi => (hpassable i (Nat.le_of_lt hi)).2
  · intro i x l hx
    rcases direction_of_lower h hx rfl with hahead | ⟨k, st, -, -, -, i', j, -, hgoto, -⟩
    · exact hahead.lt_of_jumpsTo hjumps hmarks hx rfl
    · -- the one jump to the start of a loop is no conditional one
      obtain rfl : i = i' := Code.index_unique hjumps hx rfl hgoto rfl rfl
      rw [hx] at hgoto
      cases hgoto
  · rintro i l hx ⟨j, hjump, hle⟩
    rcases direction_of_lower h hx rfl with hahead | ⟨k, st, hst, hloop, hl, -⟩
    · have hlt := (hahead.lt_of_jumpsTo hjumps hmarks hx rfl).2 j hjump
      omega
    · exact ⟨k, st, hst, hloop, hl⟩
  · intro k st hst hloop
    have hheld := (labelled_of_lower h).held k st hst
    rw [Nat.zero_add] at hheld
    have hfirst := hheld.directions.1
    rw [if_pos hloop] at hfirst
    obtain ⟨i, j, hji, hgoto, hmark⟩ := hfirst
    refine ⟨hheld, i, ⟨hgoto, j, ⟨_, _, _, hgoto, rfl, hmark, rfl⟩, hji, hmark⟩, ?_⟩
    rintro i' ⟨hgoto', -⟩
    exact Code.index_unique hjumps hgoto' rfl hgoto rfl rfl

end Lowering

/-- Lowered code has no dead ends and no dead code. In the code of a supported
program, control may come from the first instruction to every other one and from
each of them to the end; conditional jumps lead ahead; and the jumps that lead back
are one for each loop, to the mark of its first label. -/
theorem control_flows_through_lowered_code {p : Program} (hp : p.isSupported = true)
    (settings : List Setting) (hok : (LowerOptions.ofSettings settings).check = .ok ()) :
    ∃ lowered, p.lower (.ofSettings settings) = .ok lowered ∧
      p.FlowsThrough ((LowerOptions.ofSettings settings).scope p) lowered.code := by
  obtain ⟨lowered, hlower⟩ := Lowering.exists_lower hp hok
  exact ⟨lowered, hlower, Lowering.flowsThrough_of_lower hlower⟩

/-- In the code of `crowded` the marks of an else part, of a loop and of the end of
its branch touch jumps and one another. -/
theorem control_flows_through_crowded :
    crowded.isSupported = true ∧ (LowerOptions.ofSettings []).check = .ok () ∧
      crowded.lower (.ofSettings []) = .ok ⟨crowdedCode, 5, 6⟩ ∧
      crowded.FlowsThrough ((LowerOptions.ofSettings []).scope crowded) crowdedCode := by
  obtain ⟨lowered, hlower, hflows⟩ := control_flows_through_lowered_code (p := crowded) rfl [] rfl
  rw [lower_crowded] at hlower
  cases hlower
  exact ⟨rfl, rfl, lower_crowded, hflows⟩

end ThreeAddress
