import ThreeAddress.Proofs.Lowering.Options

/-!
# The life of a temporary

A temporary is assigned by one operator and read once, further on, with no
label and no jump between the two.

The code of an expression reads every temporary it assigns, but for the one that
holds its value: that one is pending (`Pending`), and it stays so while the code
of another operand is written, until the instruction comes that takes the value.
So the temporaries that code reads and the one that is pending make up, together,
exactly what was handed out; and where nothing is pending, in the code of a
block, every temporary that is assigned is read (`Closed`).
-/

namespace ThreeAddress

/-- Whether control may come to the instruction, or leave it, other than in
sequence. -/
def Instr.isControl : Instr → Bool
  | .mark _ | .goto _ | .ifFalse .. => true
  | .decl .. | .copy .. | .binop .. | .missing => false

namespace Code

/-- Code in sequence, without labels and jumps. -/
def Straight (code : Code) : Prop := ∀ x ∈ code, x.isControl = false

theorem Straight.append {code more : Code} (h : code.Straight) (h' : more.Straight) :
    (code ++ more).Straight := List.forall_mem_append.mpr ⟨h, h'⟩

theorem Straight.labels_eq_nil {code : Code} (h : code.Straight) : code.labels = [] := by
  refine List.filterMap_eq_nil_iff.mpr fun x hx => ?_
  have hx := h x hx
  cases x with
  | mark | goto | ifFalse => cases hx
  | decl | copy | binop | missing => rfl

/-- An operator assigns the temporary with the number `k`, an instruction behind
it reads that temporary, and the code between them is straight. -/
def Carries (code : Code) (k : Int) : Prop :=
  ∃ (before between after : Code) (t : Temp) (op : Op) (l r : Operand) (y : Instr),
    code = before ++ .binop t op l r :: (between ++ y :: after) ∧ t.id = k ∧
      k ∈ y.tempsRead.map Temp.id ∧ between.Straight

theorem Carries.append_right {code : Code} {k : Int} (h : code.Carries k) (more : Code) :
    (code ++ more).Carries k := by
  obtain ⟨before, between, after, t, op, l, r, y, rfl, hlife⟩ := h
  exact ⟨before, between, after ++ more, t, op, l, r, y, by simp, hlife⟩

theorem Carries.append_left {code : Code} {k : Int} (h : code.Carries k) (more : Code) :
    (more ++ code).Carries k := by
  obtain ⟨before, between, after, t, op, l, r, y, rfl, hlife⟩ := h
  exact ⟨more ++ before, between, after, t, op, l, r, y, by simp, hlife⟩

end Code

namespace Lowering

variable {s : Scope} {c c' : Counters} {a b d : Nat} {code more : Code} {x : Operand}

/-! ## Numbers handed out -/

/-- How often the number `k` is handed out while a counter goes from `a` to `b`. -/
def handedOut (a b : Nat) (k : Int) : Nat := if a ≤ k ∧ k < b then 1 else 0

theorem handedOut_self (a : Nat) (k : Int) : handedOut a a k = 0 := by
  rw [handedOut, if_neg]
  omega

theorem handedOut_add (hab : a ≤ b) (hbd : b ≤ d) (k : Int) :
    handedOut a b k + handedOut b d k = handedOut a d k := by
  grind [handedOut]

theorem handedOut_succ (hab : a ≤ b) (k : Int) :
    handedOut a b k + [(b : Int)].count k = handedOut a (b + 1) k := by
  grind [handedOut]

theorem handedOut_of_between {k : Int} (ha : a ≤ k) (hb : k < b) : handedOut a b k = 1 :=
  if_pos ⟨ha, hb⟩

/-! ## Expressions -/

/-- Straight code that computes the operand `x` and hands out the temporaries from
`a` to `b` for it. Each of them is assigned once and read once, the one that
holds the value by whatever takes it, no matter what straight code comes before. -/
structure Pending (a b : Nat) (code : Code) (x : Operand) : Prop where
  le : a ≤ b
  assigned : ∀ k, (code.temps.map Temp.id).count k = handedOut a b k
  read : ∀ k, (code.tempsRead.map Temp.id).count k + (x.temp?.toList.map Temp.id).count k =
    handedOut a b k
  straight : code.Straight
  carried : ∀ (between : Code) (y : Instr), between.Straight → x ∈ y.reads →
    ∀ k : Int, a ≤ k → k < b → (code ++ (between ++ [y])).Carries k

theorem Pending.leaf (a : Nat) (hx : x.temp? = none) : Pending a a [] x where
  le := Nat.le_refl a
  assigned k := (handedOut_self a k).symm
  read k := by rw [hx, handedOut_self]; rfl
  straight := by simp [Code.Straight]
  carried between y _ _ k ha hb := by omega

/-- An operator takes the values of its operands and leaves its own. -/
theorem Pending.binop {codeL codeR : Code} {y : Operand} {t : Temp} (hl : Pending a b codeL x)
    (hr : Pending b d codeR y) (op : Op) (ht : t.id = d) :
    Pending a (d + 1) (codeL ++ codeR ++ [.binop t op x y]) (.temp t) where
  le := Nat.le_succ_of_le (Nat.le_trans hl.le hr.le)
  assigned k := by
    have hadd := handedOut_add hl.le hr.le k
    have hown := handedOut_succ (Nat.le_trans hl.le hr.le) k
    have hleft := hl.assigned k
    have hright := hr.assigned k
    simp only [Code.temps_append, Code.temps_cons, Code.temps_nil, Instr.assigned?, Option.toList,
      List.append_nil, List.map_append, List.map_cons, List.map_nil, List.count_append, ht]
    omega
  read k := by
    have hadd := handedOut_add hl.le hr.le k
    have hown := handedOut_succ (Nat.le_trans hl.le hr.le) k
    have hleft := hl.read k
    have hright := hr.read k
    have hvalue : (Operand.temp t).temp?.toList.map Temp.id = [(d : Int)] := by
      simp [Operand.temp?, ht]
    simp only [Code.tempsRead_append, Code.tempsRead_cons, Code.tempsRead_nil,
      Instr.tempsRead_binop, List.append_nil, List.map_append, List.count_append, hvalue]
    omega
  straight := (hl.straight.append hr.straight).append (by simp [Code.Straight, Instr.isControl])
  carried between z hbetween hz k ha hk := by
    by_cases hleft : k < b
    · -- handed out for the left operand, whose value waits for the right one
      have h := hl.carried codeR (.binop t op x y) hr.straight (by simp [Instr.reads]) k ha hleft
      simpa using h.append_right (between ++ [z])
    by_cases hright : k < d
    · have h := hr.carried [] (.binop t op x y) (by simp [Code.Straight]) (by simp [Instr.reads]) k
        (by omega) hright
      simpa using (h.append_left codeL).append_right (between ++ [z])
    · have hk' : t.id = k := by omega
      refine ⟨codeL ++ codeR, between, [], t, op, x, y, z, by simp, hk', ?_, hbetween⟩
      exact List.mem_map.mpr ⟨t, Instr.mem_tempsRead hz, hk'⟩

theorem EmitsExpr.pending {e : Expr} (h : EmitsExpr s e c code x c') :
    Pending c.temps c'.temps code x := by
  induction h with
  | lit pos text c => exact .leaf c.temps rfl
  | var pos name c => exact .leaf c.temps rfl
  | bin pos _ _ _ ihL ihR => exact ihL.binop ihR _ rfl

/-! ## Blocks -/

/-- Code that hands out the temporaries from `a` to `b`, assigns each of them once
and reads each of them once, in straight code. -/
structure Closed (a b : Nat) (code : Code) : Prop where
  le : a ≤ b
  assigned : ∀ k, (code.temps.map Temp.id).count k = handedOut a b k
  read : ∀ k, (code.tempsRead.map Temp.id).count k = handedOut a b k
  carried : ∀ k : Int, a ≤ k → k < b → code.Carries k

namespace Closed

/-- Code that neither assigns nor reads temporaries. -/
theorem idle (a : Nat) (ht : code.temps = []) (hr : code.tempsRead = []) : Closed a a code where
  le := Nat.le_refl a
  assigned k := by rw [ht, handedOut_self]; rfl
  read k := by rw [hr, handedOut_self]; rfl
  carried k ha hb := by omega

theorem append (h : Closed a b code) (h' : Closed b d more) : Closed a d (code ++ more) where
  le := Nat.le_trans h.le h'.le
  assigned k := by
    rw [Code.temps_append, List.map_append, List.count_append, h.assigned, h'.assigned,
      handedOut_add h.le h'.le]
  read k := by
    rw [Code.tempsRead_append, List.map_append, List.count_append, h.read, h'.read,
      handedOut_add h.le h'.le]
  carried k ha hd := by
    by_cases hb : k < b
    · exact (h.carried k ha hb).append_right more
    · exact (h'.carried k (by omega) hd).append_left code

end Closed

/-- An instruction that takes the value of an expression and assigns nothing. -/
theorem Pending.taken {y : Instr} (h : Pending a b code x) (ht : y.assigned? = none)
    (hr : y.reads = [x]) : Closed a b (code ++ [y]) where
  le := h.le
  assigned k := by simp [ht, h.assigned]
  read k := by simpa [Instr.tempsRead_of_reads hr] using h.read k
  carried k ha hb := h.carried [] y (by simp [Code.Straight]) (by simp [hr]) k ha hb

theorem closed_piecewise : Piecewise s fun c c' code => Closed c.temps c'.temps code where
  nil c := .idle c.temps rfl rfl
  mark c _ := .idle c.temps rfl rfl
  goto c _ := .idle c.temps rfl rfl
  copy he _ := he.pending.taken rfl rfl
  ifFalse he _ := he.pending.taken rfl rfl
  append hcode hmore := hcode.append hmore
  labels purpose hcode := by simpa using hcode

/-! ## Whole programs -/

theorem tempsRead_decls (ds : List Decl) : Code.tempsRead (decls ds) = [] := by
  refine List.flatMap_eq_nil_iff.mpr fun x hx => ?_
  obtain ⟨ty, name, rfl⟩ := eq_decl_of_mem_decls hx
  rfl

theorem closed_of_lower {o : LowerOptions} {p : Program} {lowered : Lowered}
    (h : p.lower o = .ok lowered) : Closed 0 lowered.temps lowered.code := by
  have hdecls : ∀ c : Counters, Closed c.temps c.temps (decls p.decls) :=
    fun c => .idle c.temps (parts_decls p.decls).1 (tempsRead_decls p.decls)
  obtain ⟨c, hc, hclosed⟩ := closed_piecewise.of_lower hdecls h
  rw [← hc]
  exact hclosed

/-- A number that occurs in closed code was handed out. -/
theorem Closed.between (h : Closed a b code) {k : Int}
    (hk : k ∈ code.temps.map Temp.id ∨ k ∈ code.tempsRead.map Temp.id) : a ≤ k ∧ k < b := by
  have hpos : 0 < handedOut a b k := by
    rcases hk with hk | hk
    · rw [← h.assigned]
      exact List.count_pos_iff.mpr hk
    · rw [← h.read]
      exact List.count_pos_iff.mpr hk
  by_contra hout
  rw [handedOut, if_neg hout] at hpos
  exact Nat.lt_irrefl 0 hpos

end Lowering

/-- A temporary lives in straight code and is used once. In the code of a
supported program, each number of a temporary is assigned by exactly one operator
and stands in exactly one operand, which comes after that operator, with no label
and no jump between. -/
theorem temps_live_in_straight_code {p : Program} (hp : p.isSupported = true)
    (settings : List Setting) (hok : (LowerOptions.ofSettings settings).check = .ok ()) :
    ∃ lowered, p.lower (.ofSettings settings) = .ok lowered ∧
      ∀ k, k ∈ lowered.code.temps.map Temp.id ∨ k ∈ lowered.code.tempsRead.map Temp.id →
        (lowered.code.temps.map Temp.id).count k = 1 ∧
        (lowered.code.tempsRead.map Temp.id).count k = 1 ∧ lowered.code.Carries k := by
  obtain ⟨lowered, hlower⟩ := Lowering.exists_lower hp hok
  have hclosed := Lowering.closed_of_lower hlower
  refine ⟨lowered, hlower, fun k hk => ?_⟩
  obtain ⟨hfrom, hto⟩ := hclosed.between hk
  have hone := Lowering.handedOut_of_between hfrom hto
  exact ⟨by rw [hclosed.assigned, hone], by rw [hclosed.read, hone], hclosed.carried k hfrom hto⟩

/-- The left operand of the product is assigned two operators before it is read. -/
theorem crowded_temp_lives_in_straight_code :
    crowded.isSupported = true ∧ (LowerOptions.ofSettings []).check = .ok () ∧
      crowded.lower (.ofSettings []) = .ok ⟨crowdedCode, 5, 6⟩ ∧
      (crowdedCode.temps.map Temp.id).count 2 = 1 ∧
      (crowdedCode.tempsRead.map Temp.id).count 2 = 1 ∧ crowdedCode.Carries 2 := by
  obtain ⟨lowered, hlower, hlives⟩ := temps_live_in_straight_code (p := crowded) rfl [] rfl
  rw [lower_crowded] at hlower
  cases hlower
  exact ⟨rfl, rfl, lower_crowded, hlives 2 (.inl (by decide))⟩

end ThreeAddress
