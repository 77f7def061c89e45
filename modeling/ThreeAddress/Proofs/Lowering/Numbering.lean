import Mathlib.Data.Nat.Nth
import ThreeAddress.Proofs.Lowering.Lifetimes
import ThreeAddress.Proofs.Program.Occurrence

/-!
# The names of temporaries

A number is free for a stem if the program mentions no name made of the two. The
free numbers, in their order, are the numbers of the temporaries: the `k`-th
operator of the code assigns the temporary number `k`, named by the `k`-th free
number.

Temporaries are numbered by one counter and named by another, which runs ahead of
the first by the numbers it had to skip. What keeps them together is that the
free numbers below the second are as many as the first says (`Scope.OnCourse`).
-/

namespace ThreeAddress

namespace Program

/-- The program leaves the name made of the stem and the number alone. -/
def Free (p : Program) (stem : String) (n : Nat) : Prop := ¬ p.Mentions (stem ++ toString n)

/-- Trying one number after the other, from the first on, until one is free, comes
to an end at the second. -/
inductive SearchEnds (p : Program) (stem : String) : Nat → Nat → Prop
  | found {n : Nat} : p.Free stem n → SearchEnds p stem n n
  | next {n m : Nat} : ¬ p.Free stem n → SearchEnds p stem (n + 1) m → SearchEnds p stem n m

/-- The temporary number `k`, named by the `k`-th free number. -/
noncomputable def tempAt (p : Program) (stem : String) (k : Nat) : Temp :=
  ⟨k, stem ++ toString (Nat.nth (p.Free stem) k)⟩

/-- The temporaries of the code are the first ones of the program, in order. -/
structure NamesTemps (p : Program) (stem : String) (code : Code) : Prop where
  assigned : ∀ (k : Nat) (t : Temp), code.temps[k]? = some t → t = p.tempAt stem k
  read : ∀ t ∈ code.tempsRead, ∃ k < code.temps.length, t = p.tempAt stem k
  unmentioned : ∀ t ∈ code.temps, ¬ p.Mentions t.name
  /-- A number is skipped only if the program mentions the name it makes. -/
  gapless : ∀ m n : Nat, m < n → stem ++ toString n ∈ code.tempNames →
    stem ++ toString m ∈ code.tempNames ∨ p.Mentions (stem ++ toString m)

end Program

namespace Lowering

variable {s : Scope} {c c' : Counters} {code : Code}

/-! ## The search -/

/-- The search passes over taken names only. -/
theorem firstFree_skips {stem : String} {taken : List String} {n m : Nat} (hn : n ≤ m)
    (hm : m < firstFree stem taken n) : stem ++ toString m ∈ taken := by
  fun_induction firstFree stem taken n with
  | case1 taken n hmem ih =>
      by_cases hsame : m = n
      · rw [hsame]
        exact hmem
      · exact List.mem_of_mem_erase (ih (by omega) hm)
  | case2 taken n hmem => omega

theorem free_iff {p : Program} {stem : String} {n : Nat} :
    p.Free stem n ↔ stem ++ toString n ∉ p.names := by
  rw [Program.Free, Program.mem_names_iff]

theorem searchEnds_add {p : Program} {stem : String} {n d : Nat} (hfree : p.Free stem (n + d))
    (hskip : ∀ i < d, ¬ p.Free stem (n + i)) : p.SearchEnds stem n (n + d) := by
  induction d generalizing n with
  | zero => exact .found hfree
  | succ d ih =>
      have hshift : n + (d + 1) = n + 1 + d := by omega
      rw [hshift] at hfree ⊢
      refine .next (hskip 0 (Nat.succ_pos d)) (ih hfree fun i hi => ?_)
      have hnext := hskip (i + 1) (by omega)
      rwa [← Nat.add_assoc, Nat.add_right_comm] at hnext

/-- The search ends, wherever it starts, and finds the number that is used. -/
theorem searchEnds_firstFree (p : Program) (stem : String) (n : Nat) :
    p.SearchEnds stem n (firstFree stem p.names n) := by
  have hfree : p.Free stem (firstFree stem p.names n) :=
    free_iff.mpr (firstFree_not_mem stem p.names n)
  obtain ⟨d, hd⟩ := Nat.exists_eq_add_of_le (firstFree_ge stem p.names n)
  rw [hd] at hfree ⊢
  refine searchEnds_add hfree fun i hi hfree' => free_iff.mp hfree' ?_
  exact firstFree_skips (Nat.le_add_right n i) (by omega)

namespace Scope

/-- The name made of the stem and the number is not taken. -/
def IsFree (s : Scope) (n : Nat) : Prop := s.stem ++ toString n ∉ s.taken

instance (s : Scope) : DecidablePred s.IsFree := fun _ => inferInstanceAs (Decidable (¬ _))

theorem infinite_isFree (s : Scope) : (Set.ofPred s.IsFree).Infinite := by
  refine Set.infinite_of_forall_exists_gt fun n => ?_
  exact ⟨firstFree s.stem s.taken (n + 1), firstFree_not_mem s.stem s.taken (n + 1),
    firstFree_ge s.stem s.taken (n + 1)⟩

noncomputable def nthTemp (s : Scope) (k : Nat) : Temp :=
  ⟨k, s.stem ++ toString (Nat.nth s.IsFree k)⟩

/-- There are as many free numbers below the next one to try as there are
temporaries. -/
def OnCourse (s : Scope) (c : Counters) : Prop := Nat.count s.IsFree c.serial = c.temps

theorem OnCourse.withLabels (h : s.OnCourse c) (purpose : Purpose) :
    s.OnCourse (c.withLabels purpose) := by
  simpa [OnCourse] using h

/-- The next temporary takes the next free number. -/
theorem OnCourse.temp (h : s.OnCourse c) :
    (s.temp c).1 = s.nthTemp c.temps ∧ s.OnCourse (s.temp c).2 := by
  have hfree : s.IsFree (firstFree s.stem s.taken c.serial) :=
    firstFree_not_mem s.stem s.taken c.serial
  have hcount : Nat.count s.IsFree (firstFree s.stem s.taken c.serial) = c.temps := by
    obtain ⟨d, hd⟩ := Nat.exists_eq_add_of_le (firstFree_ge s.stem s.taken c.serial)
    have hnone : Nat.count (fun i => s.IsFree (c.serial + i)) d = 0 := by
      refine Nat.count_iff_forall_not.mpr fun i hi hfree' => hfree' ?_
      exact firstFree_skips (Nat.le_add_right _ i) (by omega)
    rw [hd, Nat.count_add, hnone, Nat.add_zero]
    exact h
  constructor
  · show (⟨c.temps, s.stem ++ toString (firstFree s.stem s.taken c.serial)⟩ : Temp) = _
    rw [nthTemp, ← hcount, Nat.nth_count hfree]
  · show Nat.count s.IsFree (firstFree s.stem s.taken c.serial + 1) = c.temps + 1
    rw [Nat.count_succ, hcount, if_pos hfree]

end Scope

/-! ## What is assigned -/

/-- The code goes on with the temporaries where the code before it left off. -/
def GoesOn (s : Scope) (c c' : Counters) (code : Code) : Prop :=
  s.OnCourse c → s.OnCourse c' ∧
    (List.range c.temps).map s.nthTemp ++ code.temps = (List.range c'.temps).map s.nthTemp

namespace GoesOn

variable {c₁ c₂ : Counters} {more : Code}

/-- Code that assigns nothing. -/
theorem idle (c : Counters) (ht : code.temps = []) : GoesOn s c c code := by
  intro hc
  exact ⟨hc, by rw [ht, List.append_nil]⟩

theorem append (h : GoesOn s c c₁ code) (h' : GoesOn s c₁ c₂ more) :
    GoesOn s c c₂ (code ++ more) := by
  intro hc
  obtain ⟨hc₁, hfirst⟩ := h hc
  obtain ⟨hc₂, hthen⟩ := h' hc₁
  exact ⟨hc₂, by rw [Code.temps_append, ← List.append_assoc, hfirst, hthen]⟩

theorem binop (op : Op) (x y : Operand) (c : Counters) :
    GoesOn s c (s.temp c).2 [.binop (s.temp c).1 op x y] := by
  intro hc
  obtain ⟨htemp, hc'⟩ := hc.temp
  refine ⟨hc', ?_⟩
  show _ ++ [(s.temp c).1] = (List.range (c.temps + 1)).map s.nthTemp
  rw [htemp, List.range_succ, List.map_append, List.map_singleton]

end GoesOn

theorem EmitsExpr.goesOn {e : Expr} {x : Operand} (h : EmitsExpr s e c code x c') :
    GoesOn s c c' code := by
  induction h with
  | lit | var => exact .idle _ rfl
  | bin pos _ _ _ ihL ihR => exact (ihL.append ihR).append (.binop _ _ _ _)

theorem goesOn_piecewise : Piecewise s (GoesOn s) where
  nil c := .idle c rfl
  mark c _ := .idle c rfl
  goto c _ := .idle c rfl
  copy he _ := he.goesOn.append (.idle _ rfl)
  ifFalse he _ := he.goesOn.append (.idle _ rfl)
  append hcode hmore := hcode.append hmore
  labels purpose hcode hc := by simpa using hcode (hc.withLabels purpose)

/-! ## What is read -/

/-- Temporaries are read as they were assigned, name and all. -/
theorem EmitsExpr.tempsRead_subset {e : Expr} {x : Operand} (h : EmitsExpr s e c code x c') :
    code.tempsRead ⊆ code.temps ∧ x.temp?.toList ⊆ code.temps := by
  induction h with
  | lit | var => simp [Operand.temp?]
  | bin pos _ _ _ ihL ihR =>
      obtain ⟨hreadL, hx⟩ := ihL
      obtain ⟨hreadR, hy⟩ := ihR
      refine ⟨fun t ht => ?_, by simp [Operand.temp?, Instr.assigned?]⟩
      simp only [Code.tempsRead_append, Code.tempsRead_cons, Code.tempsRead_nil,
        Instr.tempsRead_binop, List.append_nil, List.mem_append] at ht
      rw [Code.temps_append, Code.temps_append, List.mem_append, List.mem_append]
      rcases ht with (ht | ht) | ht | ht
      · exact .inl (.inl (hreadL ht))
      · exact .inl (.inr (hreadR ht))
      · exact .inl (.inl (hx ht))
      · exact .inl (.inr (hy ht))

theorem EmitsExpr.tempsRead_concat {e : Expr} {x : Operand} {y : Instr}
    (h : EmitsExpr s e c code x c') (hr : y.reads = [x]) :
    Code.tempsRead (code ++ [y]) ⊆ Code.temps (code ++ [y]) := by
  obtain ⟨hread, hx⟩ := h.tempsRead_subset
  intro t ht
  simp only [Code.tempsRead_append, Code.tempsRead_cons, Code.tempsRead_nil, List.append_nil,
    Instr.tempsRead_of_reads hr, List.mem_append] at ht
  rw [Code.temps_append, List.mem_append]
  rcases ht with ht | ht
  · exact .inl (hread ht)
  · exact .inl (hx ht)

theorem tempsRead_piecewise : Piecewise s fun _ _ code => code.tempsRead ⊆ code.temps where
  nil _ := List.nil_subset _
  mark _ _ := List.nil_subset _
  goto _ _ := List.nil_subset _
  copy he _ := he.tempsRead_concat rfl
  ifFalse he _ := he.tempsRead_concat rfl
  append hcode hmore := by
    rw [Code.tempsRead_append, Code.temps_append]
    exact List.append_subset.mpr
      ⟨List.subset_append_of_subset_left _ hcode, List.subset_append_of_subset_right _ hmore⟩
  labels _ hcode := hcode

/-! ## Whole programs -/

theorem isFree_scope (o : LowerOptions) (p : Program) :
    (o.scope p).IsFree = p.Free o.tempStem := funext fun _ => propext free_iff.symm

theorem nthTemp_scope (o : LowerOptions) (p : Program) :
    (o.scope p).nthTemp = p.tempAt o.tempStem := by
  funext k
  rw [Scope.nthTemp, isFree_scope]
  rfl

theorem temps_of_lower {o : LowerOptions} {p : Program} {lowered : Lowered}
    (h : p.lower o = .ok lowered) :
    lowered.code.temps = (List.range lowered.temps).map (p.tempAt o.tempStem) := by
  have hdecls : ∀ c, GoesOn (o.scope p) c c (decls p.decls) :=
    fun c => .idle c (parts_decls p.decls).1
  obtain ⟨c, hc, hgoesOn⟩ := goesOn_piecewise.of_lower hdecls h
  rw [← hc, ← nthTemp_scope]
  exact (hgoesOn (Nat.count_zero _)).2

theorem tempsRead_of_lower {o : LowerOptions} {p : Program} {lowered : Lowered}
    (h : p.lower o = .ok lowered) : lowered.code.tempsRead ⊆ lowered.code.temps := by
  obtain ⟨-, -, hread⟩ := tempsRead_piecewise.of_lower
    (fun _ => by rw [tempsRead_decls]; exact List.nil_subset _) h
  exact hread

/-- A free number below the `k`-th one is an earlier one. -/
theorem Scope.exists_nth_eq {m k : Nat} (hm : s.IsFree m) (hlt : m < Nat.nth s.IsFree k) :
    ∃ i < k, Nat.nth s.IsFree i = m := by
  refine ⟨Nat.count s.IsFree m, ?_, Nat.nth_count hm⟩
  calc
    Nat.count s.IsFree m < Nat.count s.IsFree (Nat.nth s.IsFree k) := Nat.count_strict_mono hm hlt
    _ = k := Nat.count_nth_of_infinite s.infinite_isFree k

theorem namesTemps_of_lower {o : LowerOptions} {p : Program} {lowered : Lowered}
    (h : p.lower o = .ok lowered) : p.NamesTemps o.tempStem lowered.code := by
  have htemps := temps_of_lower h
  have hmem : ∀ {t}, t ∈ lowered.code.temps → ∃ k < lowered.temps, t = p.tempAt o.tempStem k := by
    intro t ht
    rw [htemps] at ht
    obtain ⟨k, hk, rfl⟩ := List.mem_map.mp ht
    exact ⟨k, List.mem_range.mp hk, rfl⟩
  constructor
  · intro k t ht
    rw [htemps, List.getElem?_map, Option.map_eq_some_iff] at ht
    obtain ⟨i, hi, rfl⟩ := ht
    obtain ⟨hlt, rfl⟩ := List.getElem?_eq_some_iff.mp hi
    rw [List.getElem_range]
  · intro t ht
    obtain ⟨k, hk, rfl⟩ := hmem (tempsRead_of_lower h ht)
    exact ⟨k, by simpa [htemps] using hk, rfl⟩
  · intro t ht
    obtain ⟨k, hk, rfl⟩ := hmem ht
    have hfree := Nat.nth_mem_of_infinite (o.scope p).infinite_isFree k
    rw [isFree_scope] at hfree
    exact hfree
  · intro m n hmn hn
    by_cases hm : p.Mentions (o.tempStem ++ toString m)
    · exact .inr hm
    obtain ⟨t, ht, hname⟩ := List.mem_map.mp hn
    obtain ⟨k, hk, rfl⟩ := hmem ht
    have hnth : Nat.nth (p.Free o.tempStem) k = n := append_number_inj hname
    rw [← hnth, ← isFree_scope] at hmn
    have hfree : (o.scope p).IsFree m := free_iff.mp hm
    obtain ⟨i, hi, rfl⟩ := Scope.exists_nth_eq hfree hmn
    refine .inl (List.mem_map.mpr ⟨p.tempAt o.tempStem i, ?_, ?_⟩)
    · rw [htemps]
      exact List.mem_map_of_mem (List.mem_range.mpr (by omega))
    · rw [Program.tempAt, isFree_scope]

end Lowering

/-- Temporaries take the free numbers in order. In the code of a supported program
the `k`-th operator assigns the temporary number `k`, named by the stem and the
`k`-th number that makes no name of the program; it is read under the same name.
The search for the next such number always ends. -/
theorem temps_take_free_numbers {p : Program} (hp : p.isSupported = true)
    (settings : List Setting) (hok : (LowerOptions.ofSettings settings).check = .ok ()) :
    ∃ lowered, p.lower (.ofSettings settings) = .ok lowered ∧
      p.NamesTemps (LowerOptions.ofSettings settings).tempStem lowered.code ∧
      ∀ n, p.SearchEnds (LowerOptions.ofSettings settings).tempStem n
        (Lowering.firstFree (LowerOptions.ofSettings settings).tempStem p.names n) := by
  obtain ⟨lowered, hlower⟩ := Lowering.exists_lower hp hok
  exact ⟨lowered, hlower, Lowering.namesTemps_of_lower hlower,
    Lowering.searchEnds_firstFree p _⟩

/-- The numbers 1 and 3 are skipped, as `t1` is declared and `t3` is read. -/
theorem crowded_temps_take_free_numbers :
    crowded.isSupported = true ∧ (LowerOptions.ofSettings []).check = .ok () ∧
      crowded.lower (.ofSettings []) = .ok ⟨crowdedCode, 5, 6⟩ ∧
      crowded.NamesTemps "t" crowdedCode ∧ crowdedCode.tempNames = ["t0", "t2", "t4", "t5", "t6"] ∧
      crowded.SearchEnds "t" 3 4 := by
  obtain ⟨lowered, hlower, hnames, hsearch⟩ := temps_take_free_numbers (p := crowded) rfl [] rfl
  rw [lower_crowded] at hlower
  cases hlower
  have hfour : Lowering.firstFree "t" crowded.names 3 = 4 := by decide +kernel
  refine ⟨rfl, rfl, lower_crowded, hnames, rfl, ?_⟩
  rw [← hfour]
  exact hsearch 3

end ThreeAddress
