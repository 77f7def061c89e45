import ThreeAddress.Code.Verify
import ThreeAddress.Proofs.Attempt
import ThreeAddress.Proofs.Bitmap
import ThreeAddress.Proofs.Code.Parts

/-!
# Code that is accepted

What the check has seen after some code is what that code assigns, places, jumps
to and names (`Seen.Tracks`). An instruction that fits after the code is passed,
and what was seen follows it (`Tracks.step`); so code in which every instruction
fits after those before it is passed whole, and it is accepted if its jumps go
to labels that it places.
-/

namespace ThreeAddress

/-! ## Instructions that fit -/

/-- The names the code introduces, those of temporaries first. -/
def Code.names (code : Code) : List String := code.tempNames ++ code.markNames

theorem Code.names_append_perm (code more : Code) :
    (code ++ more).names.Perm (code.names ++ more.names) := by
  refine List.perm_iff_count.mpr fun name => ?_
  simp only [Code.names, Code.tempNames_append, Code.markNames_append, List.count_append]
  omega

/-- Whether an instruction is none of the two that are never right: a hole, and
an operator outside the language. -/
def Instr.isKnown : Instr → Bool
  | .binop _ op _ _ => op.isValid
  | .missing => false
  | _ => true

/-- The instruction may come right after the code `done`. -/
structure Instr.FitsAfter (done : Code) (x : Instr) : Prop where
  known : x.isKnown = true
  reads : ∀ t, .temp t ∈ x.reads → 0 ≤ t.id ∧ t.id ∈ done.temps.map Temp.id
  assigned : ∀ t, x.assigned? = some t →
    0 ≤ t.id ∧ t.id ∉ done.temps.map Temp.id ∧ t.name ∉ done.names
  placed : ∀ l, x.placed? = some l →
    0 ≤ l.id ∧ l.id ∉ done.marks.map Label.id ∧ l.name ∉ done.names
  jump : ∀ l, x.jump? = some l → 0 ≤ l.id

/-- Every instruction of the code may come after `done` and those before it. -/
def Code.FitsAfter (done : Code) : Code → Prop
  | [] => True
  | x :: rest => x.FitsAfter done ∧ Code.FitsAfter (done ++ [x]) rest

namespace Verify.Seen

/-! ## What was seen -/

structure Tracks (seen : Seen) (done : Code) : Prop where
  temps : seen.temps.Holds (done.temps.map Temp.id)
  marked : seen.marked.Holds (done.marks.map Label.id)
  jumped : seen.jumped.Holds (done.jumps.map Label.id)
  names : ∀ name, name ∈ seen.names.map Prod.fst ↔ name ∈ done.names

theorem tracks_nil : Tracks {} [] :=
  ⟨Bitmap.holds_empty, Bitmap.holds_empty, Bitmap.holds_empty, fun _ => Iff.rfl⟩

variable {seen : Seen} {done : Code} {x : Instr}

theorem Tracks.isAssigned (h : seen.Tracks done) {id : Int} (hid : 0 ≤ id) :
    seen.isAssigned id = .ok (decide (id ∈ done.temps.map Temp.id)) := by
  rw [Seen.isAssigned, h.temps.isSet hid]
  rfl

theorem Tracks.isMarked (h : seen.Tracks done) {id : Int} (hid : 0 ≤ id) :
    seen.isMarked id = .ok (decide (id ∈ done.marks.map Label.id)) := by
  rw [Seen.isMarked, h.marked.isSet hid]
  rfl

theorem Tracks.unassigned? (h : seen.Tracks done) {operand : Operand}
    (hread : ∀ t, operand = .temp t → 0 ≤ t.id ∧ t.id ∈ done.temps.map Temp.id) :
    seen.unassigned? operand = .ok none := by
  cases operand with
  | temp t =>
      obtain ⟨hid, hmem⟩ := hread t rfl
      rw [Seen.unassigned?, h.isAssigned hid, ok_bind, decide_eq_true hmem]
      rfl
  | var | lit | missing => rfl

theorem Tracks.read (h : seen.Tracks done) (index : Nat) (operand : Operand)
    (hread : ∀ t, operand = .temp t → 0 ≤ t.id ∧ t.id ∈ done.temps.map Temp.id) :
    seen.read index operand = .ok () := by
  rw [Seen.read, h.unassigned? hread]
  rfl

theorem Tracks.introduce (h : seen.Tracks done) (index : Nat) {name : String}
    (hname : name ∉ done.names) :
    seen.introduce index name = .ok { seen with names := (name, index) :: seen.names } := by
  -- the list of names is searched front to back; a name that is not there has no entry
  have hnone : seen.names.lookup name = none := by
    rw [List.lookup_eq_none_iff]
    intro entry hentry
    rw [bne_iff_ne]
    intro hsame
    exact hname ((h.names name).mp (List.mem_map.mpr ⟨entry, hentry, hsame.symm⟩))
  rw [Seen.introduce, hnone]

/-! ## One instruction -/

/-- What was seen follows an instruction if it takes in what that instruction
alone assigns, places, jumps to and names. -/
theorem tracks_concat {seen' : Seen} (x : Instr)
    (ht : seen'.temps.Holds (done.temps.map Temp.id ++ (Code.temps [x]).map Temp.id))
    (hm : seen'.marked.Holds (done.marks.map Label.id ++ (Code.marks [x]).map Label.id))
    (hj : seen'.jumped.Holds (done.jumps.map Label.id ++ (Code.jumps [x]).map Label.id))
    (hn : ∀ name, name ∈ seen'.names.map Prod.fst ↔ name ∈ done.names ∨ name ∈ Code.names [x]) :
    seen'.Tracks (done ++ [x]) := by
  constructor
  · rwa [Code.temps_append, List.map_append]
  · rwa [Code.marks_append, List.map_append]
  · rwa [Code.jumps_append, List.map_append]
  · intro name
    rw [hn, (Code.names_append_perm done [x]).mem_iff, List.mem_append]

theorem Tracks.assign (h : seen.Tracks done) (index : Nat) {t : Temp} {op : Op} {l r : Operand}
    (hx : (Instr.binop t op l r).FitsAfter done) :
    ∃ seen', seen.assign index t = .ok seen' ∧ seen'.Tracks (done ++ [.binop t op l r]) := by
  obtain ⟨hid, hnew, hname⟩ := hx.assigned t rfl
  obtain ⟨hset, hholds⟩ := h.temps.set hid
  refine ⟨{ seen with
    temps := seen.temps.insert t.id.toNat, names := (t.name, index) :: seen.names }, ?_,
    tracks_concat _ hholds (by simpa [Instr.placed?] using h.marked)
      (by simpa [Instr.jump?] using h.jumped) fun name => ?_⟩
  · rw [Seen.assign, h.isAssigned hid, ok_bind, decide_eq_false hnew, h.introduce index hname]
    simp only [ok_bind, hset]
    rfl
  · rw [List.map_cons, List.mem_cons, h.names]
    show name = t.name ∨ name ∈ done.names ↔ name ∈ done.names ∨ name ∈ [t.name]
    rw [List.mem_singleton, or_comm]

theorem Tracks.place (h : seen.Tracks done) (index : Nat) {l : Label}
    (hx : (Instr.mark l).FitsAfter done) :
    ∃ seen', seen.place index l = .ok seen' ∧ seen'.Tracks (done ++ [.mark l]) := by
  obtain ⟨hid, hnew, hname⟩ := hx.placed l rfl
  obtain ⟨hset, hholds⟩ := h.marked.set hid
  refine ⟨{ seen with
    marked := seen.marked.insert l.id.toNat, names := (l.name, index) :: seen.names }, ?_,
    tracks_concat _ (by simpa [Instr.assigned?] using h.temps) hholds
      (by simpa [Instr.jump?] using h.jumped) fun name => ?_⟩
  · rw [Seen.place, h.isMarked hid, ok_bind, decide_eq_false hnew, h.introduce index hname]
    simp only [ok_bind, hset]
    rfl
  · rw [List.map_cons, List.mem_cons, h.names]
    show name = l.name ∨ name ∈ done.names ↔ name ∈ done.names ∨ name ∈ [l.name]
    rw [List.mem_singleton, or_comm]

/-- Either jump. -/
theorem Tracks.jump (h : seen.Tracks done) {l : Label} (hid : 0 ≤ l.id) (hjump : x.jump? = some l)
    (hassigned : x.assigned? = none) (hplaced : x.placed? = none) :
    ∃ seen', seen.jump l = .ok seen' ∧ seen'.Tracks (done ++ [x]) := by
  obtain ⟨hset, hholds⟩ := h.jumped.set hid
  refine ⟨{ seen with
    jumped := seen.jumped.insert l.id.toNat, jumps := l :: seen.jumps }, ?_,
    tracks_concat _ (by simpa [hassigned] using h.temps) (by simpa [hplaced] using h.marked)
      (by simpa [hjump] using hholds) fun name => ?_⟩
  · rw [Seen.jump, hset]
    rfl
  · simp [h.names, Code.names, Code.tempNames, Code.markNames, hassigned, hplaced]

/-- Nothing is seen of an instruction that neither introduces nor jumps. -/
theorem Tracks.pass (h : seen.Tracks done) (hassigned : x.assigned? = none)
    (hplaced : x.placed? = none) (hjump : x.jump? = none) : seen.Tracks (done ++ [x]) := by
  refine tracks_concat _ (by simpa [hassigned] using h.temps) (by simpa [hplaced] using h.marked)
    (by simpa [hjump] using h.jumped) fun name => ?_
  simp [h.names, Code.names, Code.tempNames, Code.markNames, hassigned, hplaced]

theorem Tracks.step (h : seen.Tracks done) (index : Nat) (hx : x.FitsAfter done) :
    ∃ seen', seen.step index x = .ok seen' ∧ seen'.Tracks (done ++ [x]) := by
  cases x with
  | decl ty name => exact ⟨seen, rfl, h.pass rfl rfl rfl⟩
  | copy dst src =>
      refine ⟨seen, ?_, h.pass rfl rfl rfl⟩
      rw [Seen.step, h.read index src fun t ht => hx.reads t (by simp [Instr.reads, ht])]
      rfl
  | binop t op l r =>
      obtain ⟨seen', hassign, htracks⟩ := h.assign index hx
      refine ⟨seen', ?_, htracks⟩
      have hop : op.isValid = true := hx.known
      have hl := h.read index l fun t ht => hx.reads t (by simp [Instr.reads, ht])
      have hr := h.read index r fun t ht => hx.reads t (by simp [Instr.reads, ht])
      rw [Seen.step, hl, hr, hassign]
      simp [hop]
  | mark l => exact h.place index hx
  | goto l => exact h.jump (hx.jump l rfl) rfl rfl rfl
  | ifFalse cond l =>
      -- the jump is noted whatever becomes of the operand
      obtain ⟨seen', hjump, htracks⟩ :=
        h.jump (x := .ifFalse cond l) (hx.jump l rfl) rfl rfl rfl
      refine ⟨seen', ?_, htracks⟩
      rw [Seen.step, h.unassigned? fun t ht => hx.reads t (by simp [Instr.reads, ht]), ok_bind,
        hjump, ok_bind]
      rfl
  | missing => exact absurd hx.known (by decide)

/-! ## All instructions -/

theorem Tracks.run {code : Code} (h : seen.Tracks done) (index : Nat)
    (hcode : Code.FitsAfter done code) :
    ∃ seen', seen.run index code = .ok seen' ∧ seen'.Tracks (done ++ code) := by
  induction code generalizing seen done index with
  | nil => exact ⟨seen, rfl, by rwa [List.append_nil]⟩
  | cons x rest ih =>
      obtain ⟨hx, hrest⟩ := hcode
      obtain ⟨seen₁, hstep, h₁⟩ := h.step index hx
      obtain ⟨seen₂, hrun, h₂⟩ := ih h₁ (index + 1) hrest
      refine ⟨seen₂, ?_, by simpa using h₂⟩
      rw [Seen.run, hstep, ok_bind, hrun]

theorem Tracks.settle {code : Code} (h : seen.Tracks code)
    (hjumps : ∀ l ∈ code.jumps, l.id ∈ code.marks.map Label.id) : seen.settle = .ok () := by
  have hnone := Bitmap.first?_sdiff_eq_none h.jumped h.marked (by simpa using hjumps)
  rw [Seen.settle, hnone]

end Verify.Seen

/-! ## Reading what was assigned -/

namespace Code

/-- Every temporary that an instruction reads is assigned before it. -/
def ReadsOwn (code : Code) : Prop :=
  ∀ (done : Code) (x : Instr) (rest : Code), code = done ++ x :: rest →
    ∀ t, .temp t ∈ x.reads → t.id ∈ done.temps.map Temp.id

theorem split_append {code more done rest : Code} {x : Instr}
    (h : code ++ more = done ++ x :: rest) :
    (∃ rest', code = done ++ x :: rest') ∨
      ∃ done', done = code ++ done' ∧ more = done' ++ x :: rest := by
  rcases List.append_eq_append_iff.mp h with ⟨done', hdone, hmore⟩ | ⟨rest', hcode, hrest⟩
  · exact .inr ⟨done', hdone, hmore⟩
  · -- the instruction stands in `code`, unless `code` ends right before it
    cases rest' with
    | nil => exact .inr ⟨[], by simpa using hcode.symm, by simpa using hrest.symm⟩
    | cons y rest' =>
        cases hrest
        exact .inl ⟨rest', hcode⟩

theorem readsOwn_of_reads_eq_nil {code : Code} (h : ∀ x ∈ code, x.reads = []) :
    code.ReadsOwn := by
  intro done x rest hsplit t ht
  rw [h x (by simp [hsplit])] at ht
  simp at ht

theorem ReadsOwn.append {code more : Code} (h : code.ReadsOwn) (h' : more.ReadsOwn) :
    (code ++ more).ReadsOwn := by
  intro done x rest hsplit t ht
  rcases split_append hsplit with ⟨rest', hcode⟩ | ⟨done', rfl, hmore⟩
  · exact h done x rest' hcode t ht
  · have hmem := h' done' x rest hmore t ht
    rw [temps_append, List.map_append, List.mem_append]
    exact .inr hmem

/-- An instruction may read what the code before it assigns. -/
theorem ReadsOwn.concat {code : Code} {x : Instr} (h : code.ReadsOwn)
    (hx : ∀ t, .temp t ∈ x.reads → t.id ∈ code.temps.map Temp.id) : (code ++ [x]).ReadsOwn := by
  intro done y rest hsplit t ht
  rcases split_append hsplit with ⟨rest', hcode⟩ | ⟨done', rfl, hlast⟩
  · exact h done y rest' hcode t ht
  · cases done' with
    | nil =>
        cases hlast
        rw [List.append_nil]
        exact hx t ht
    | cons z done' => simp at hlast

/-! ## Well-formed code -/

/-- What code must satisfy to be accepted, said about the code as a whole. -/
structure WellFormed (code : Code) : Prop where
  known : ∀ x ∈ code, x.isKnown = true
  temps : ∀ t ∈ code.temps, 0 ≤ t.id
  marks : ∀ l ∈ code.marks, 0 ≤ l.id
  tempIds : (code.temps.map Temp.id).Nodup
  markIds : (code.marks.map Label.id).Nodup
  names : code.names.Nodup
  reads : code.ReadsOwn
  jumps : ∀ l ∈ code.jumps, l.id ∈ code.marks.map Label.id

variable {code : Code}

theorem WellFormed.jump_nonneg (h : code.WellFormed) {l : Label} (hl : l ∈ code.jumps) :
    0 ≤ l.id := by
  obtain ⟨m, hm, hid⟩ := List.mem_map.mp (h.jumps l hl)
  rw [← hid]
  exact h.marks m hm

/-- Nothing that is introduced after some code has a number or a name that the
code has introduced. -/
theorem WellFormed.fresh (h : code.WellFormed) {done more : Code} (hsplit : code = done ++ more) :
    (∀ t ∈ more.temps, t.id ∉ done.temps.map Temp.id) ∧
    (∀ l ∈ more.marks, l.id ∉ done.marks.map Label.id) ∧
    ∀ name ∈ more.names, name ∉ done.names := by
  have htemps := h.tempIds
  have hmarks := h.markIds
  have hnames := h.names
  rw [hsplit, temps_append, List.map_append, List.nodup_append] at htemps
  rw [hsplit, marks_append, List.map_append, List.nodup_append] at hmarks
  rw [hsplit, (names_append_perm done more).nodup_iff, List.nodup_append] at hnames
  refine ⟨fun t ht hmem => ?_, fun l hl hmem => ?_, fun name hname hmem => ?_⟩
  · exact htemps.2.2 t.id hmem t.id (List.mem_map_of_mem ht) rfl
  · exact hmarks.2.2 l.id hmem l.id (List.mem_map_of_mem hl) rfl
  · exact hnames.2.2 name hmem name hname rfl

theorem WellFormed.fits_of_split (h : code.WellFormed) {done rest : Code} {x : Instr}
    (hsplit : code = done ++ x :: rest) : x.FitsAfter done := by
  -- what `x` introduces is introduced after `done`, so none of it is in `done`
  obtain ⟨htemp, hmark, hname⟩ := h.fresh hsplit
  constructor
  · exact h.known x (by simp [hsplit])
  · intro t ht
    have hmem := h.reads done x rest hsplit t ht
    obtain ⟨t', ht', hid⟩ := List.mem_map.mp hmem
    exact ⟨hid ▸ h.temps t' (by simp [hsplit, ht']), hmem⟩
  · intro t ht
    refine ⟨h.temps t (by simp [hsplit, ht]), htemp t (by simp [ht]), hname t.name ?_⟩
    simp [Code.names, Code.tempNames, ht]
  · intro l hl
    refine ⟨h.marks l (by simp [hsplit, hl]), hmark l (by simp [hl]), hname l.name ?_⟩
    simp [Code.names, Code.markNames, hl]
  · intro l hl
    exact h.jump_nonneg (by simp [hsplit, hl])

theorem WellFormed.fitsAfter (h : code.WellFormed) {done rest : Code}
    (hsplit : code = done ++ rest) : Code.FitsAfter done rest := by
  induction rest generalizing done with
  | nil => exact trivial
  | cons x rest ih => exact ⟨h.fits_of_split hsplit, ih (by simpa using hsplit)⟩

theorem WellFormed.verify (h : code.WellFormed) : code.verify = .ok () := by
  have hfits : Code.FitsAfter [] code := h.fitsAfter rfl
  obtain ⟨seen, hrun, htracks⟩ := Verify.Seen.tracks_nil.run 0 hfits
  rw [Code.verify, hrun, ok_bind]
  exact htracks.settle h.jumps

end Code

end ThreeAddress
