import ThreeAddress.Proofs.Code.Acceptance

/-!
# Nothing else is accepted

The other half of the account of accepted code. The check passes an instruction
only if it fits after the code before it (`Tracks.fits_of_step`), so code that
is passed whole introduces everything once and reads what it has assigned. What
is left open until the end is where its jumps go (`Code.Open`), and settling
them leaves well-formed code.
-/

namespace ThreeAddress

namespace Verify.Seen

variable {seen seen' : Seen} {done : Code} {index : Nat}

/-! ## One instruction -/

theorem Tracks.of_isAssigned (h : seen.Tracks done) {id : Int} {b : Bool}
    (hok : seen.isAssigned id = .ok b) : 0 ≤ id ∧ b = decide (id ∈ done.temps.map Temp.id) := by
  have hid : 0 ≤ id := Bitmap.nonneg_of_isSet (mapError_eq_ok_iff.mp hok)
  rw [h.isAssigned hid] at hok
  cases hok
  exact ⟨hid, rfl⟩

theorem Tracks.of_isMarked (h : seen.Tracks done) {id : Int} {b : Bool}
    (hok : seen.isMarked id = .ok b) : 0 ≤ id ∧ b = decide (id ∈ done.marks.map Label.id) := by
  have hid : 0 ≤ id := Bitmap.nonneg_of_isSet (mapError_eq_ok_iff.mp hok)
  rw [h.isMarked hid] at hok
  cases hok
  exact ⟨hid, rfl⟩

theorem Tracks.of_unassigned? (h : seen.Tracks done) {operand : Operand}
    (hok : seen.unassigned? operand = .ok none) (t : Temp) (ht : operand = .temp t) :
    0 ≤ t.id ∧ t.id ∈ done.temps.map Temp.id := by
  subst ht
  obtain ⟨b, hb, hnone⟩ := bind_eq_ok_iff.mp hok
  obtain ⟨hid, rfl⟩ := h.of_isAssigned hb
  by_cases hmem : t.id ∈ done.temps.map Temp.id
  · exact ⟨hid, hmem⟩
  · rw [decide_eq_false hmem] at hnone
    cases hnone

theorem unassigned?_of_read {operand : Operand} (hok : seen.read index operand = .ok ()) :
    seen.unassigned? operand = .ok none := by
  obtain ⟨late, hlate, hread⟩ := bind_eq_ok_iff.mp hok
  cases late with
  | none => exact hlate
  | some name => cases hread

theorem Tracks.of_introduce (h : seen.Tracks done) {name : String}
    (hok : seen.introduce index name = .ok seen') : name ∉ done.names := by
  intro hmem
  obtain ⟨entry, hentry, rfl⟩ := List.mem_map.mp ((h.names name).mpr hmem)
  unfold Seen.introduce at hok
  split at hok
  · cases hok
  · rename_i hnone
    simpa using List.lookup_eq_none_iff.mp hnone entry hentry

theorem Tracks.of_assign (h : seen.Tracks done) {t : Temp}
    (hok : seen.assign index t = .ok seen') :
    0 ≤ t.id ∧ t.id ∉ done.temps.map Temp.id ∧ t.name ∉ done.names := by
  obtain ⟨b, hb, hok⟩ := bind_eq_ok_iff.mp hok
  obtain ⟨hid, rfl⟩ := h.of_isAssigned hb
  split at hok
  · cases hok
  · rename_i hnew
    obtain ⟨named, hnamed, -⟩ := bind_eq_ok_iff.mp hok
    exact ⟨hid, by simpa using hnew, h.of_introduce hnamed⟩

theorem Tracks.of_place (h : seen.Tracks done) {l : Label}
    (hok : seen.place index l = .ok seen') :
    0 ≤ l.id ∧ l.id ∉ done.marks.map Label.id ∧ l.name ∉ done.names := by
  obtain ⟨b, hb, hok⟩ := bind_eq_ok_iff.mp hok
  obtain ⟨hid, rfl⟩ := h.of_isMarked hb
  split at hok
  · cases hok
  · rename_i hnew
    obtain ⟨named, hnamed, -⟩ := bind_eq_ok_iff.mp hok
    exact ⟨hid, by simpa using hnew, h.of_introduce hnamed⟩

theorem nonneg_of_jump {l : Label} (hok : seen.jump l = .ok seen') : 0 ≤ l.id := by
  obtain ⟨jumped, hset, -⟩ := bind_eq_ok_iff.mp hok
  exact Bitmap.nonneg_of_set (mapError_eq_ok_iff.mp hset)

theorem Tracks.fits_of_step (h : seen.Tracks done) {x : Instr}
    (hok : seen.step index x = .ok seen') : x.FitsAfter done := by
  -- an instruction makes one or two of the parts, the others are void
  cases x with
  | decl ty name =>
      constructor
      case known => rfl
      all_goals rintro _ ⟨⟩
  | copy dst src =>
      obtain ⟨_, hsrc, -⟩ := bind_eq_ok_iff.mp hok
      constructor
      case known => rfl
      case reads =>
        intro t ht
        exact h.of_unassigned? (unassigned?_of_read hsrc) t (List.mem_singleton.mp ht).symm
      all_goals rintro _ ⟨⟩
  | binop t op l r =>
      cases hop : op.isValid with
      | false =>
          rw [Seen.step, hop] at hok
          cases hok
      | true =>
          rw [Seen.step, hop] at hok
          obtain ⟨_, hl, hok⟩ := bind_eq_ok_iff.mp hok
          obtain ⟨_, hr, hok⟩ := bind_eq_ok_iff.mp hok
          constructor
          case known => exact hop
          case reads =>
            intro u hu
            simp only [Instr.reads, List.mem_cons, List.not_mem_nil, or_false] at hu
            rcases hu with hu | hu
            · exact h.of_unassigned? (unassigned?_of_read hl) u hu.symm
            · exact h.of_unassigned? (unassigned?_of_read hr) u hu.symm
          case assigned =>
            rintro u ⟨⟩
            exact h.of_assign hok
          all_goals rintro _ ⟨⟩
  | mark l =>
      constructor
      case known => rfl
      case placed =>
        rintro m ⟨⟩
        exact h.of_place hok
      all_goals rintro _ ⟨⟩
  | goto l =>
      constructor
      case known => rfl
      case jump =>
        rintro m ⟨⟩
        exact nonneg_of_jump hok
      all_goals rintro _ ⟨⟩
  | ifFalse cond l =>
      obtain ⟨late, hlate, hok⟩ := bind_eq_ok_iff.mp hok
      obtain ⟨jumped, hjump, hok⟩ := bind_eq_ok_iff.mp hok
      cases late with
      | none =>
          constructor
          case known => rfl
          case reads =>
            intro t ht
            exact h.of_unassigned? hlate t (List.mem_singleton.mp ht).symm
          case jump =>
            rintro m ⟨⟩
            exact nonneg_of_jump hjump
          all_goals rintro _ ⟨⟩
      | some name => cases hok
  | missing => cases hok

/-- What was seen keeps up with a step that goes through. -/
theorem Tracks.of_step (h : seen.Tracks done) {x : Instr} (hok : seen.step index x = .ok seen') :
    seen'.Tracks (done ++ [x]) := by
  obtain ⟨seen₂, hstep, htracks⟩ := h.step index (h.fits_of_step hok)
  rw [hok] at hstep
  cases hstep
  exact htracks

/-! ## All instructions -/

theorem Tracks.fits_of_run {code : Code} (h : seen.Tracks done)
    (hok : seen.run index code = .ok seen') :
    Code.FitsAfter done code ∧ seen'.Tracks (done ++ code) := by
  induction code generalizing seen done index with
  | nil =>
      cases hok
      exact ⟨trivial, by rwa [List.append_nil]⟩
  | cons x rest ih =>
      obtain ⟨seen₁, hstep, hrun⟩ := bind_eq_ok_iff.mp hok
      obtain ⟨hrest, h'⟩ := ih (h.of_step hstep) hrun
      exact ⟨⟨h.fits_of_step hstep, hrest⟩, by simpa using h'⟩

theorem Tracks.placed_of_settle {code : Code} (h : seen.Tracks code)
    (hok : seen.settle = .ok ()) {l : Label} (hl : l ∈ code.jumps) (hid : 0 ≤ l.id) :
    l.id ∈ code.marks.map Label.id := by
  unfold Seen.settle at hok
  split at hok
  · rename_i hnone
    exact Bitmap.mem_of_first?_sdiff h.jumped h.marked hnone (List.mem_map_of_mem hl) hid
  · cases hok

end Verify.Seen

namespace Code

/-! ## Well-formed but for its jumps -/

/-- All that makes code well-formed, except that its jumps may go to labels that
are not placed yet. -/
structure Open (code : Code) : Prop where
  known : ∀ x ∈ code, x.isKnown = true
  temps : ∀ t ∈ code.temps, 0 ≤ t.id
  marks : ∀ l ∈ code.marks, 0 ≤ l.id
  jumps : ∀ l ∈ code.jumps, 0 ≤ l.id
  tempIds : (code.temps.map Temp.id).Nodup
  markIds : (code.marks.map Label.id).Nodup
  names : code.names.Nodup
  reads : code.ReadsOwn

variable {code done : Code} {x : Instr}

theorem open_nil : Open [] := by
  refine ⟨?_, ?_, ?_, ?_, ?_, ?_, ?_, readsOwn_of_reads_eq_nil (by simp)⟩ <;>
    simp [Code.names, Code.tempNames, Code.markNames]

/-- One instruction introduces one name at most. -/
theorem nodup_names_single (x : Instr) : (Code.names [x]).Nodup := by
  cases x <;> simp [Code.names, Code.tempNames, Code.markNames, Instr.assigned?, Instr.placed?]

theorem mem_names_single {name : String} (h : name ∈ Code.names [x]) :
    (∃ t, x.assigned? = some t ∧ t.name = name) ∨ ∃ l, x.placed? = some l ∧ l.name = name := by
  simpa [Code.names, Code.tempNames, Code.markNames] using h

theorem Open.concat (h : done.Open) (hx : x.FitsAfter done) : (done ++ [x]).Open := by
  constructor
  · intro y hy
    rcases List.mem_append.mp hy with hy | hy
    · exact h.known y hy
    · rw [List.mem_singleton.mp hy]
      exact hx.known
  · intro t ht
    simp only [temps_append, temps_cons, temps_nil, List.append_nil, List.mem_append,
      Option.mem_toList] at ht
    exact ht.elim (h.temps t) fun ht => (hx.assigned t ht).1
  · intro l hl
    simp only [marks_append, marks_cons, marks_nil, List.append_nil, List.mem_append,
      Option.mem_toList] at hl
    exact hl.elim (h.marks l) fun hl => (hx.placed l hl).1
  · intro l hl
    simp only [jumps_append, jumps_cons, jumps_nil, List.append_nil, List.mem_append,
      Option.mem_toList] at hl
    exact hl.elim (h.jumps l) (hx.jump l)
  · rw [temps_append, List.map_append, List.nodup_append]
    refine ⟨h.tempIds, by cases x <;> simp [Instr.assigned?], ?_⟩
    rintro id hid id' hid' rfl
    obtain ⟨t, ht, rfl⟩ : ∃ t, x.assigned? = some t ∧ t.id = id := by simpa using hid'
    exact (hx.assigned t ht).2.1 hid
  · rw [marks_append, List.map_append, List.nodup_append]
    refine ⟨h.markIds, by cases x <;> simp [Instr.placed?], ?_⟩
    rintro id hid id' hid' rfl
    obtain ⟨l, hl, rfl⟩ : ∃ l, x.placed? = some l ∧ l.id = id := by simpa using hid'
    exact (hx.placed l hl).2.1 hid
  · rw [(names_append_perm done [x]).nodup_iff, List.nodup_append]
    refine ⟨h.names, nodup_names_single x, ?_⟩
    rintro name hname name' hname' rfl
    rcases mem_names_single hname' with ⟨t, ht, rfl⟩ | ⟨l, hl, rfl⟩
    · exact (hx.assigned t ht).2.2 hname
    · exact (hx.placed l hl).2.2 hname
  · exact h.reads.concat fun t ht => (hx.reads t ht).2

theorem Open.append (h : done.Open) (hcode : Code.FitsAfter done code) : (done ++ code).Open := by
  induction code generalizing done with
  | nil => rwa [List.append_nil]
  | cons x rest ih =>
      obtain ⟨hx, hrest⟩ := hcode
      simpa using ih (h.concat hx) hrest

theorem Open.wellFormed (h : code.Open)
    (hjumps : ∀ l ∈ code.jumps, l.id ∈ code.marks.map Label.id) : code.WellFormed :=
  ⟨h.known, h.temps, h.marks, h.tempIds, h.markIds, h.names, h.reads, hjumps⟩

theorem wellFormed_of_verify (hok : code.verify = .ok ()) : code.WellFormed := by
  obtain ⟨seen, hrun, hsettle⟩ := bind_eq_ok_iff.mp hok
  obtain ⟨hfits, htracks⟩ := Verify.Seen.tracks_nil.fits_of_run hrun
  have hopen : code.Open := open_nil.append hfits
  exact hopen.wellFormed fun l hl => htracks.placed_of_settle hsettle hl (hopen.jumps l hl)

/-- What is read was assigned before, told by the places of instructions. -/
theorem readsOwn_iff : code.ReadsOwn ↔
    ∀ (i : Nat) (x : Instr) (t : Temp), code[i]? = some x → .temp t ∈ x.reads →
      ∃ (j : Nat) (dst : Temp) (op : Op) (l r : Operand),
        j < i ∧ code[j]? = some (.binop dst op l r) ∧ dst.id = t.id := by
  constructor
  · intro h i x t hi ht
    obtain ⟨hlt, hget⟩ := List.getElem?_eq_some_iff.mp hi
    have hsplit : code = code.take i ++ x :: code.drop (i + 1) := by
      rw [← hget, List.getElem_cons_drop, List.take_append_drop]
    obtain ⟨dst, hdst, hid⟩ := List.mem_map.mp (h _ x _ hsplit t ht)
    obtain ⟨op, l, r, hmem⟩ := mem_temps_iff.mp hdst
    obtain ⟨j, hj, hbinop⟩ := List.mem_take_iff_getElem.mp hmem
    refine ⟨j, dst, op, l, r, by omega, ?_, hid⟩
    rw [← hbinop, List.getElem?_eq_getElem]
  · intro h done x rest hsplit t ht
    obtain ⟨j, dst, op, l, r, hj, hbinop, hid⟩ := h done.length x t (by simp [hsplit]) ht
    rw [hsplit, List.getElem?_append_left hj] at hbinop
    rw [← hid]
    exact List.mem_map_of_mem (mem_temps_iff.mpr ⟨op, l, r, List.mem_of_getElem? hbinop⟩)

theorem known_iff : (∀ x ∈ code, x.isKnown = true) ↔
    .missing ∉ code ∧ ∀ dst op l r, .binop dst op l r ∈ code → op.isValid = true := by
  constructor
  · intro h
    exact ⟨fun hx => absurd (h _ hx) (by decide), fun dst op l r hx => h _ hx⟩
  · rintro ⟨hmissing, hop⟩ x hx
    cases x with
    | binop dst op l r => exact hop dst op l r hx
    | missing => exact absurd hx hmissing
    | decl | copy | mark | goto | ifFalse => rfl

end Code

/-- The check accepts exactly well-formed code. Code is accepted iff it has no
holes and no operators outside the language; no temporary or label has a
negative number; no two operators assign, and no two marks place, the same
number; the names they introduce are all different; an instruction reads only
temporaries that an operator before it assigns; and jumps go to labels that are
placed somewhere. -/
theorem verify_eq_ok_iff (code : Code) : code.verify = .ok () ↔
    .missing ∉ code ∧
    (∀ dst op l r, .binop dst op l r ∈ code → op.isValid = true) ∧
    (∀ t ∈ code.temps, 0 ≤ t.id) ∧
    (∀ x ∈ code, ∀ t, .temp t ∈ x.reads → 0 ≤ t.id) ∧
    (∀ l ∈ code.marks, 0 ≤ l.id) ∧
    (∀ l ∈ code.jumps, 0 ≤ l.id) ∧
    (code.temps.map Temp.id).Nodup ∧
    (code.marks.map Label.id).Nodup ∧
    (code.temps.map Temp.name ++ code.marks.map Label.name).Nodup ∧
    (∀ (i : Nat) (x : Instr) (t : Temp), code[i]? = some x → .temp t ∈ x.reads →
      ∃ (j : Nat) (dst : Temp) (op : Op) (l r : Operand),
        j < i ∧ code[j]? = some (.binop dst op l r) ∧ dst.id = t.id) ∧
    (∀ l ∈ code.jumps, ∃ m ∈ code.marks, m.id = l.id) := by
  constructor
  · intro hok
    have h := Code.wellFormed_of_verify hok
    obtain ⟨hmissing, hop⟩ := Code.known_iff.mp h.known
    refine ⟨hmissing, hop, h.temps, ?_, h.marks, fun l => h.jump_nonneg, h.tempIds, h.markIds,
      h.names, Code.readsOwn_iff.mp h.reads, fun l hl => List.mem_map.mp (h.jumps l hl)⟩
    -- a temporary that is read has the number of one that is assigned
    intro x hx t ht
    obtain ⟨done, rest, hsplit⟩ := List.append_of_mem hx
    exact ((h.fits_of_split hsplit).reads t ht).1
  · rintro ⟨hmissing, hop, htemps, -, hmarks, -, htempIds, hmarkIds, hnames, hreads, hjumps⟩
    exact Code.WellFormed.verify ⟨Code.known_iff.mpr ⟨hmissing, hop⟩, htemps, hmarks, htempIds,
      hmarkIds, hnames, Code.readsOwn_iff.mpr hreads, fun l hl => List.mem_map.mpr (hjumps l hl)⟩

end ThreeAddress
