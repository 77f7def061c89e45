import ThreeAddress.Proofs.Code.Exactness
import ThreeAddress.Proofs.Lowering.Names

/-!
# The offence that is reported

Code that is not accepted may be wrong in many places. Which offence is reported
is told here rule by rule: an instruction breaks a rule after the code before it
(`Instr.Breaks`), or all instructions are right and a jump is left open
(`Code.LeavesOpen`).

Besides what it tracks, the check records where each name was introduced, and
the jumps in their order (`Seen.Records`). A step that fails then names a rule
that its instruction breaks (`Tracks.breaks_of_step`), and so a run fails at the
first instruction that breaks one (`Tracks.breaks_of_run`).
-/

namespace ThreeAddress

/-! ## Breaking a rule -/

/-- The name an instruction introduces. -/
def Instr.introduced? : Instr → Option String
  | .binop t .. => some t.name
  | .mark l => some l.name
  | _ => none

/-- The numbers of the temporaries and labels of an instruction. -/
def Instr.ids (x : Instr) : List Int :=
  (x.tempsRead ++ x.assigned?.toList).map Temp.id ++ x.label?.toList.map Label.id

def Code.ids (code : Code) : List Int := code.flatMap Instr.ids

/-- The instruction may not come right after the code `done`, for the reason that
the offence gives. -/
inductive Instr.Breaks (done : Code) : Instr → Offence → Prop
  | missing : Breaks done .missing (.missingInstruction done.length)
  | operator {dst : Temp} {op : Op} {l r : Operand} : op.isValid = false →
      Breaks done (.binop dst op l r) (.unknownOperator done.length op)
  | read {x : Instr} {t : Temp} : .temp t ∈ x.reads → t.id ∉ done.temps.map Temp.id →
      Breaks done x (.readBeforeAssignment done.length t.name)
  | assigned {x : Instr} {t : Temp} : x.assigned? = some t → t.id ∈ done.temps.map Temp.id →
      Breaks done x (.assignedTwice done.length t.name)
  | placed {x : Instr} {l : Label} : x.placed? = some l → l.id ∈ done.marks.map Label.id →
      Breaks done x (.placedTwice done.length l.name)
  | name {x y : Instr} {name : String} {j : Nat} : x.introduced? = some name →
      done[j]? = some y → y.introduced? = some name →
      Breaks done x (.nameReused done.length name j)

/-- The jump to `l` is left open: its label is placed nowhere and is the smallest
of that kind, and no later jump goes to the same label. -/
structure Code.LeavesOpen (code : Code) (l : Label) : Prop where
  unplaced : l.id ∉ code.marks.map Label.id
  least : ∀ m ∈ code.jumps, m.id ∉ code.marks.map Label.id → l.id ≤ m.id
  last : ∃ before x after, code = before ++ x :: after ∧ x.jump? = some l ∧
    ∀ m ∈ Code.jumps after, m.id ≠ l.id

theorem Code.mem_names_iff {code : Code} {name : String} :
    name ∈ code.names ↔ ∃ x ∈ code, x.introduced? = some name := by
  rw [Code.names, Code.tempNames, Code.markNames, List.mem_append, List.mem_map, List.mem_map]
  constructor
  · rintro (⟨t, ht, rfl⟩ | ⟨l, hl, rfl⟩)
    · obtain ⟨x, hx, hassigned⟩ := List.mem_filterMap.mp ht
      refine ⟨x, hx, ?_⟩
      cases x <;> cases hassigned
      rfl
    · obtain ⟨x, hx, hplaced⟩ := List.mem_filterMap.mp hl
      refine ⟨x, hx, ?_⟩
      cases x <;> cases hplaced
      rfl
  · rintro ⟨x, hx, hname⟩
    cases x with
    | binop t op l r =>
        cases hname
        exact .inl ⟨t, List.mem_filterMap.mpr ⟨_, hx, rfl⟩, rfl⟩
    | mark l =>
        cases hname
        exact .inr ⟨l, List.mem_filterMap.mpr ⟨_, hx, rfl⟩, rfl⟩
    | decl | copy | goto | ifFalse | missing => cases hname

theorem Instr.FitsAfter.not_introduced {done : Code} {x : Instr} (h : x.FitsAfter done)
    {name : String} (hname : x.introduced? = some name) : name ∉ done.names := by
  cases x with
  | binop t op l r =>
      cases hname
      exact (h.assigned t rfl).2.2
  | mark l =>
      cases hname
      exact (h.placed l rfl).2.2
  | decl | copy | goto | ifFalse | missing => cases hname

theorem Instr.Breaks.not_fits {done : Code} {x : Instr} {e : Offence} (h : x.Breaks done e) :
    ¬ x.FitsAfter done := by
  intro hfits
  cases h with
  | missing => exact absurd hfits.known (by decide)
  | operator hop => exact absurd hfits.known (by simpa [Instr.isKnown] using hop)
  | read hread hlate => exact hlate (hfits.reads _ hread).2
  | assigned hassigned htwice => exact (hfits.assigned _ hassigned).2.1 htwice
  | placed hplaced htwice => exact (hfits.placed _ hplaced).2.1 htwice
  | name hname hy hused =>
      exact hfits.not_introduced hname
        (Code.mem_names_iff.mpr ⟨_, List.mem_of_getElem? hy, hused⟩)

namespace Verify.Seen

variable {seen seen' : Seen} {done : Code} {x : Instr} {index : Nat} {e : Offence}

/-! ## What is recorded -/

structure Records (seen : Seen) (done : Code) : Prop where
  names : ∀ name j, (name, j) ∈ seen.names →
    ∃ y, done[j]? = some y ∧ y.introduced? = some name
  jumps : seen.jumps = done.jumps.reverse

theorem records_nil : Records {} [] := ⟨by simp, rfl⟩

theorem Records.concat (h : seen.Records done)
    (hnames : seen'.names = (x.introduced?.map (·, done.length)).toList ++ seen.names)
    (hjumps : seen'.jumps = x.jump?.toList ++ seen.jumps) : seen'.Records (done ++ [x]) := by
  constructor
  · intro name j hmem
    rw [hnames, List.mem_append, Option.mem_toList, Option.map_eq_some_iff] at hmem
    rcases hmem with ⟨_, hname, hentry⟩ | hmem
    · cases hentry
      exact ⟨x, List.getElem?_concat_length, hname⟩
    · obtain ⟨y, hy, hname⟩ := h.names name j hmem
      obtain ⟨hlt, -⟩ := List.getElem?_eq_some_iff.mp hy
      exact ⟨y, by rwa [List.getElem?_append_left hlt], hname⟩
  · rw [hjumps, h.jumps, Code.jumps_append, List.reverse_append]
    cases hjump : x.jump? with
    | none => simp [hjump]
    | some l => simp [hjump]

theorem names_of_introduce {name : String} (hok : seen.introduce index name = .ok seen') :
    seen' = { seen with names := (name, index) :: seen.names } := by
  unfold introduce at hok
  split at hok
  · cases hok
  · cases hok
    rfl

/-- What `assign` and `place` have in common: a number that is not taken, then a name
that is not, then a note of the number in one of the bitmaps. -/
def enter (seen : Seen) (index : Nat) (name : String) (taken : Except Offence Bool)
    (twice : Offence) (note : Seen → Except Offence Seen) : Except Offence Seen := do
  if ← taken then throw twice
  let named ← seen.introduce index name
  note named

theorem assign_eq_enter (seen : Seen) (index : Nat) (t : Temp) :
    seen.assign index t = seen.enter index t.name (seen.isAssigned t.id)
      (.assignedTwice index t.name) fun named => do
        return { named with temps := ← (named.temps.set t.id).mapError .ofNegative } := rfl

theorem place_eq_enter (seen : Seen) (index : Nat) (l : Label) :
    seen.place index l = seen.enter index l.name (seen.isMarked l.id)
      (.placedTwice index l.name) fun named => do
        return { named with marked := ← (named.marked.set l.id).mapError .ofNegative } := rfl

theorem names_of_enter {name : String} {taken : Except Offence Bool} {twice : Offence}
    {note : Seen → Except Offence Seen}
    (hnote : ∀ named noted, note named = .ok noted →
      noted.names = named.names ∧ noted.jumps = named.jumps)
    (hok : seen.enter index name taken twice note = .ok seen') :
    seen'.names = (name, index) :: seen.names ∧ seen'.jumps = seen.jumps := by
  obtain ⟨b, -, hok⟩ := bind_eq_ok_iff.mp hok
  split at hok
  · cases hok
  · obtain ⟨named, hnamed, hok⟩ := bind_eq_ok_iff.mp hok
    cases names_of_introduce hnamed
    exact hnote _ _ hok

theorem names_of_assign {t : Temp} (hok : seen.assign index t = .ok seen') :
    seen'.names = (t.name, index) :: seen.names ∧ seen'.jumps = seen.jumps := by
  rw [assign_eq_enter] at hok
  refine names_of_enter ?_ hok
  intro named noted hnoted
  obtain ⟨temps, -, hnoted⟩ := bind_eq_ok_iff.mp hnoted
  cases hnoted
  exact ⟨rfl, rfl⟩

theorem names_of_place {l : Label} (hok : seen.place index l = .ok seen') :
    seen'.names = (l.name, index) :: seen.names ∧ seen'.jumps = seen.jumps := by
  rw [place_eq_enter] at hok
  refine names_of_enter ?_ hok
  intro named noted hnoted
  obtain ⟨marked, -, hnoted⟩ := bind_eq_ok_iff.mp hnoted
  cases hnoted
  exact ⟨rfl, rfl⟩

theorem names_of_jump {l : Label} (hok : seen.jump l = .ok seen') :
    seen'.names = seen.names ∧ seen'.jumps = l :: seen.jumps := by
  obtain ⟨jumped, -, hok⟩ := bind_eq_ok_iff.mp hok
  cases hok
  exact ⟨rfl, rfl⟩

/-- A step adds the name that its instruction introduces, and its jump. -/
theorem names_of_step (hok : seen.step index x = .ok seen') :
    seen'.names = (x.introduced?.map (·, index)).toList ++ seen.names ∧
      seen'.jumps = x.jump?.toList ++ seen.jumps := by
  cases x with
  | decl ty name =>
      cases hok
      exact ⟨rfl, rfl⟩
  | copy dst src =>
      obtain ⟨_, -, hok⟩ := bind_eq_ok_iff.mp hok
      cases hok
      exact ⟨rfl, rfl⟩
  | binop t op l r =>
      cases hop : op.isValid with
      | false =>
          rw [step, hop] at hok
          cases hok
      | true =>
          rw [step, hop] at hok
          obtain ⟨_, -, hok⟩ := bind_eq_ok_iff.mp hok
          obtain ⟨_, -, hok⟩ := bind_eq_ok_iff.mp hok
          exact names_of_assign hok
  | mark l => exact names_of_place hok
  | goto l => exact names_of_jump hok
  | ifFalse cond l =>
      obtain ⟨late, -, hok⟩ := bind_eq_ok_iff.mp hok
      obtain ⟨jumped, hjump, hok⟩ := bind_eq_ok_iff.mp hok
      cases late with
      | none =>
          cases hok
          exact names_of_jump hjump
      | some name => cases hok
  | missing => cases hok

theorem Records.step (h : seen.Records done) (hok : seen.step done.length x = .ok seen') :
    seen'.Records (done ++ [x]) := by
  obtain ⟨hnames, hjumps⟩ := names_of_step hok
  exact h.concat hnames hjumps

/-! ## A step that fails -/

/-- An operand is read in time, or it is a temporary that nothing has assigned. -/
theorem Tracks.unassigned?_cases (h : seen.Tracks done) {operand : Operand}
    (hid : ∀ t, operand = .temp t → 0 ≤ t.id) :
    seen.unassigned? operand = .ok none ∨
      ∃ t, operand = .temp t ∧ t.id ∉ done.temps.map Temp.id ∧
        seen.unassigned? operand = .ok (some t.name) := by
  cases operand with
  | temp t =>
      by_cases hmem : t.id ∈ done.temps.map Temp.id
      · refine .inl (h.unassigned? ?_)
        rintro _ ⟨⟩
        exact ⟨hid t rfl, hmem⟩
      · refine .inr ⟨t, rfl, hmem, ?_⟩
        rw [Seen.unassigned?, h.isAssigned (hid t rfl), ok_bind, decide_eq_false hmem]
        rfl
  | var | lit | missing => exact .inl rfl

theorem Tracks.read_error (h : seen.Tracks done) {operand : Operand}
    (hid : ∀ t, operand = .temp t → 0 ≤ t.id) (herr : seen.read index operand = .error e) :
    ∃ t, operand = .temp t ∧ t.id ∉ done.temps.map Temp.id ∧
      e = .readBeforeAssignment index t.name := by
  rcases h.unassigned?_cases hid with hnone | ⟨t, ht, hlate, hsome⟩
  · rw [Seen.read, hnone] at herr
    cases herr
  · rw [Seen.read, hsome] at herr
    cases herr
    exact ⟨t, ht, hlate, rfl⟩

/-- Where a name that is taken was introduced is found in the record. -/
theorem Records.introduce_error (h : seen.Records done) {name : String}
    (herr : seen.introduce index name = .error e) :
    ∃ j y, done[j]? = some y ∧ y.introduced? = some name ∧ e = .nameReused index name j := by
  unfold Seen.introduce at herr
  split at herr
  · rename_i first hfirst
    cases herr
    obtain ⟨before, after, hsplit, -⟩ := List.lookup_eq_some_iff.mp hfirst
    obtain ⟨y, hy, hname⟩ := h.names name first (by simp [hsplit])
    exact ⟨first, y, hy, hname, rfl⟩
  · cases herr

/-- An entry fails if the number or the name is taken; noting a number that is not
negative does not. -/
theorem Records.enter_error (h : seen.Records done) {name : String} {b : Bool} {twice : Offence}
    {note : Seen → Except Offence Seen} (hx : x.introduced? = some name)
    (hnote : note { seen with names := (name, done.length) :: seen.names } ≠ .error e)
    (herr : seen.enter done.length name (.ok b) twice note = .error e) :
    (b = true ∧ e = twice) ∨ x.Breaks done e := by
  cases b with
  | true =>
      cases herr
      exact .inl ⟨rfl, rfl⟩
  | false =>
      have hrest : seen.introduce done.length name >>= note = .error e := herr
      rcases bind_eq_error_iff.mp hrest with herr | ⟨named, hnamed, herr⟩
      · obtain ⟨j, y, hy, hused, rfl⟩ := h.introduce_error herr
        exact .inr (.name hx hy hused)
      · cases names_of_introduce hnamed
        exact absurd herr hnote

theorem Tracks.assign_error (h : seen.Tracks done) (h' : seen.Records done) {t : Temp} {op : Op}
    {l r : Operand} (hid : 0 ≤ t.id) (herr : seen.assign done.length t = .error e) :
    (Instr.binop t op l r).Breaks done e := by
  rw [assign_eq_enter, h.isAssigned hid] at herr
  obtain ⟨htwice, rfl⟩ | hbreaks := h'.enter_error (x := .binop t op l r) rfl
    (by rw [(h.temps.set hid).1]; rintro ⟨⟩) herr
  · exact .assigned rfl (of_decide_eq_true htwice)
  · exact hbreaks

theorem Tracks.place_error (h : seen.Tracks done) (h' : seen.Records done) {l : Label}
    (hid : 0 ≤ l.id) (herr : seen.place done.length l = .error e) :
    (Instr.mark l).Breaks done e := by
  rw [place_eq_enter, h.isMarked hid] at herr
  obtain ⟨htwice, rfl⟩ | hbreaks := h'.enter_error (x := .mark l) rfl
    (by rw [(h.marked.set hid).1]; rintro ⟨⟩) herr
  · exact .placed rfl (of_decide_eq_true htwice)
  · exact hbreaks

theorem Tracks.jump_ne_error (h : seen.Tracks done) {l : Label} (hid : 0 ≤ l.id) :
    seen.jump l ≠ .error e := by
  intro herr
  rw [Seen.jump, (h.jumped.set hid).1] at herr
  cases herr

theorem Tracks.breaks_of_step (h : seen.Tracks done) (h' : seen.Records done)
    (hids : ∀ id ∈ x.ids, 0 ≤ id) (herr : seen.step done.length x = .error e) :
    x.Breaks done e := by
  have hread : ∀ t, .temp t ∈ x.reads → 0 ≤ t.id := by
    intro t ht
    have hmem := Instr.mem_tempsRead ht
    exact hids t.id (List.mem_append_left _ (List.mem_map_of_mem (List.mem_append_left _ hmem)))
  have hassigned : ∀ t, x.assigned? = some t → 0 ≤ t.id := by
    intro t ht
    exact hids t.id (by simp [Instr.ids, ht])
  have hlabel : ∀ l, x.label? = some l → 0 ≤ l.id := by
    intro l hl
    exact hids l.id (by simp [Instr.ids, hl])
  cases x with
  | decl ty name => cases herr
  | copy dst src =>
      rcases bind_eq_error_iff.mp herr with herr | ⟨_, -, herr⟩
      · obtain ⟨t, rfl, hlate, rfl⟩ :=
          h.read_error (fun t ht => hread t (by simp [Instr.reads, ht])) herr
        exact .read List.mem_cons_self hlate
      · cases herr
  | binop t op l r =>
      cases hop : op.isValid with
      | false =>
          rw [Seen.step, hop] at herr
          cases herr
          exact .operator hop
      | true =>
          rw [Seen.step, hop] at herr
          rcases bind_eq_error_iff.mp herr with herr | ⟨_, -, herr⟩
          · obtain ⟨u, rfl, hlate, rfl⟩ :=
              h.read_error (fun u hu => hread u (by simp [Instr.reads, hu])) herr
            exact .read List.mem_cons_self hlate
          · rcases bind_eq_error_iff.mp herr with herr | ⟨_, -, herr⟩
            · obtain ⟨u, rfl, hlate, rfl⟩ :=
                h.read_error (fun u hu => hread u (by simp [Instr.reads, hu])) herr
              exact .read (List.mem_cons_of_mem _ List.mem_cons_self) hlate
            · exact h.assign_error h' (hassigned t rfl) herr
  | mark l => exact h.place_error h' (hlabel l rfl) herr
  | goto l => exact absurd herr (h.jump_ne_error (hlabel l rfl))
  | ifFalse cond l =>
      -- the jump is noted in any case, so what is wrong is the operand
      have hcond : ∀ t, cond = .temp t → 0 ≤ t.id :=
        fun t ht => hread t (by simp [Instr.reads, ht])
      rcases h.unassigned?_cases hcond with hnone | ⟨t, rfl, hlate, hsome⟩
      · rw [Seen.step, hnone, ok_bind] at herr
        rcases bind_eq_error_iff.mp herr with herr | ⟨_, -, herr⟩
        · exact absurd herr (h.jump_ne_error (hlabel l rfl))
        · cases herr
      · rw [Seen.step, hsome, ok_bind] at herr
        rcases bind_eq_error_iff.mp herr with herr | ⟨_, -, herr⟩
        · exact absurd herr (h.jump_ne_error (hlabel l rfl))
        · cases herr
          exact .read List.mem_cons_self hlate
  | missing =>
      cases herr
      exact .missing

/-! ## A run that fails -/

/-- A run fails at an instruction that breaks a rule, and those before it are right. -/
theorem Tracks.breaks_of_run {code : Code} (h : seen.Tracks done) (h' : seen.Records done)
    (hids : ∀ id ∈ code.ids, 0 ≤ id) (herr : seen.run done.length code = .error e) :
    ∃ before y after, code = before ++ y :: after ∧ Code.FitsAfter done before ∧
      y.Breaks (done ++ before) e := by
  induction code generalizing seen done with
  | nil => cases herr
  | cons x rest ih =>
      have hx : ∀ id ∈ x.ids, 0 ≤ id := fun id hid => hids id (List.mem_append_left _ hid)
      have hrest : ∀ id ∈ Code.ids rest, 0 ≤ id :=
        fun id hid => hids id (List.mem_append_right _ hid)
      rcases bind_eq_error_iff.mp herr with herr | ⟨seen₁, hstep, herr⟩
      · refine ⟨[], x, rest, rfl, trivial, ?_⟩
        rw [List.append_nil]
        exact h.breaks_of_step h' hx herr
      · have hlength : (done ++ [x]).length = done.length + 1 := List.length_append
        rw [← hlength] at herr
        obtain ⟨before, y, after, rfl, hfits, hbreaks⟩ :=
          ih (h.of_step hstep) (h'.step hstep) hrest herr
        refine ⟨x :: before, y, after, rfl, ⟨h.fits_of_step hstep, hfits⟩, ?_⟩
        rwa [List.append_cons]

theorem Records.run {code : Code} (h : seen.Records done)
    (hok : seen.run done.length code = .ok seen') : seen'.Records (done ++ code) := by
  induction code generalizing seen done with
  | nil =>
      cases hok
      rwa [List.append_nil]
  | cons x rest ih =>
      obtain ⟨seen₁, hstep, hrun⟩ := bind_eq_ok_iff.mp hok
      have hlength : (done ++ [x]).length = done.length + 1 := List.length_append
      rw [← hlength] at hrun
      rw [List.append_cons]
      exact ih (h.step hstep) hrun

/-! ## Jumps left open -/

theorem last_jump {code : Code} {before after : List Label} {l : Label}
    (h : code.jumps = before ++ l :: after) :
    ∃ done x rest, code = done ++ x :: rest ∧ x.jump? = some l ∧ Code.jumps rest = after := by
  obtain ⟨done, more, rfl, -, hmore⟩ := List.filterMap_eq_append_iff.mp h
  obtain ⟨skipped, x, rest, rfl, -, hx, hrest⟩ := List.filterMap_eq_cons_iff.mp hmore
  exact ⟨done ++ skipped, x, rest, (List.append_assoc ..).symm, hx, hrest⟩

theorem Tracks.leavesOpen_of_settle {code : Code} (h : seen.Tracks code) (h' : seen.Records code)
    (hids : ∀ l ∈ code.jumps, 0 ≤ l.id) (herr : seen.settle = .error e) :
    ∃ l, code.LeavesOpen l ∧ e = .undefinedLabel l.name := by
  unfold Seen.settle at herr
  split at herr
  · cases herr
  · rename_i n hfirst
    cases herr
    obtain ⟨hn, hleast⟩ := Bitmap.least_of_first? hfirst
    have hopen : ∀ m : Nat, (seen.jumped.sdiff seen.marked).contains m = true ↔
        (m : Int) ∈ code.jumps.map Label.id ∧ (m : Int) ∉ code.marks.map Label.id := by
      intro m
      rw [Bitmap.contains_sdiff, Bool.and_eq_true, Bool.not_eq_true', ← Bool.not_eq_true,
        h.jumped m, h.marked m]
    obtain ⟨hjumped, hunplaced⟩ := (hopen n).mp hn
    cases hfind : seen.jumps.find? fun l => l.id = Int.ofNat n with
    | none =>
        -- some jump goes to the label, and all jumps are in the record
        obtain ⟨m, hm, hid⟩ := List.mem_map.mp hjumped
        rw [h'.jumps, List.find?_eq_none] at hfind
        exact absurd hid (by simpa using hfind m (List.mem_reverse.mpr hm))
    | some l =>
        rw [h'.jumps, List.find?_eq_some_iff_append] at hfind
        obtain ⟨hid, later, earlier, hsplit, hlater⟩ := hfind
        have hid : l.id = n := by simpa using hid
        refine ⟨l, ⟨by rwa [hid], ?_, ?_⟩, rfl⟩
        · intro m hm hm'
          obtain ⟨k, hk⟩ := Int.eq_ofNat_of_zero_le (hids m hm)
          have hle := hleast k ((hopen k).mpr
            ⟨hk ▸ List.mem_map_of_mem hm, hk ▸ hm'⟩)
          omega
        · have hjumps : code.jumps = earlier.reverse ++ l :: later.reverse := by
            rw [← List.reverse_reverse code.jumps, hsplit]
            simp
          obtain ⟨done, x, rest, hcode, hx, hrest⟩ := last_jump hjumps
          refine ⟨done, x, rest, hcode, hx, ?_⟩
          intro m hm
          rw [hrest, List.mem_reverse] at hm
          rw [hid]
          simpa using hlater m hm

end Verify.Seen

/-! ## Reading messages -/

/-- A number ends where something other than a digit stands. -/
theorem digits_append_inj {ds es u v : List Char} {c : Char} (hds : ∀ d ∈ ds, d.isDigit = true)
    (hes : ∀ d ∈ es, d.isDigit = true) (hc : c.isDigit = false)
    (h : ds ++ c :: u = es ++ c :: v) : ds = es ∧ u = v := by
  have htake := congrArg (List.takeWhile Char.isDigit) h
  rw [List.takeWhile_append_of_pos hds, List.takeWhile_append_of_pos hes,
    List.takeWhile_cons_of_neg (by simp [hc]), List.takeWhile_cons_of_neg (by simp [hc]),
    List.append_nil, List.append_nil] at htake
  subst htake
  exact ⟨rfl, (List.cons.inj (List.append_cancel_left h)).2⟩

theorem instr_text_inj {i j : Nat} {u v : String}
    (h : "instr " ++ toString i ++ ": " ++ u = "instr " ++ toString j ++ ": " ++ v) :
    i = j ∧ u = v := by
  have hchars := congrArg String.toList h
  simp only [String.toList_append, List.append_assoc] at hchars
  have hnumber : (toString i).toList ++ ':' :: ' ' :: u.toList =
      (toString j).toList ++ ':' :: ' ' :: v.toList := List.append_cancel_left hchars
  obtain ⟨hi, hu⟩ := digits_append_inj (fun _ => isDigit_of_mem_number)
    (fun _ => isDigit_of_mem_number) (by decide) hnumber
  exact ⟨number_inj (String.toList_inj.mp hi), String.toList_inj.mp (List.cons.inj hu).2⟩

theorem instr_text_ne_jump_text (i : Nat) (what name : String) :
    "instr " ++ toString i ++ ": " ++ what ≠ "jump to undefined label " ++ name := by
  intro h
  have hchars := congrArg String.toList h
  simp at hchars

theorem name_text_inj {name name' : String} {j j' : Nat}
    (h : "name " ++ name ++ " already used at instr " ++ toString j =
      "name " ++ name' ++ " already used at instr " ++ toString j') : name = name' ∧ j = j' := by
  have hchars := congrArg (fun s => s.toList.reverse) h
  simp only [String.toList_append, List.reverse_append, List.append_assoc] at hchars
  -- the number is read from its end
  obtain ⟨hj, hname⟩ := digits_append_inj (c := ' ')
    (fun _ hd => isDigit_of_mem_number (List.mem_reverse.mp hd))
    (fun _ hd => isDigit_of_mem_number (List.mem_reverse.mp hd)) (by decide) hchars
  have hname := List.append_cancel_right (List.append_cancel_left hname)
  exact ⟨String.toList_inj.mp (List.reverse_inj.mp hname),
    number_inj (String.toList_inj.mp (List.reverse_inj.mp hj))⟩

theorem Offence.message_nameReused (i : Nat) (name : String) (j : Nat) :
    (Offence.nameReused i name j).message = "instr " ++ toString i ++ ": " ++
      ("name " ++ name ++ " already used at instr " ++ toString j) := by
  show "instr " ++ toString i ++ ": " ++ "name " ++ name ++ " already used at instr " ++
    toString j = _
  simp only [String.append_assoc]

namespace Instr.Breaks

variable {done : Code} {x : Instr} {e : Offence}

/-- The message tells the index first. Among the messages that do, those about
names are the ones that go on with an `n`. -/
theorem message_eq (h : x.Breaks done e) :
    ∃ what, e.message = "instr " ++ toString done.length ++ ": " ++ what ∧
      (what.toList.head? = some 'n' → ∃ name j, e = .nameReused done.length name j) := by
  cases h with
  | missing => exact ⟨_, rfl, by simp⟩
  | operator => exact ⟨_, String.append_assoc .., by simp⟩
  | read | assigned | placed =>
      exact ⟨_, (String.append_assoc ..).trans (String.append_assoc ..), by simp⟩
  | name => exact ⟨_, Offence.message_nameReused .., fun _ => ⟨_, _, rfl⟩⟩

theorem eq_nameReused (h : x.Breaks done e) {i j : Nat} {name : String}
    (hmessage : e.message = (Offence.nameReused i name j).message) : e = .nameReused i name j := by
  rw [Offence.message_nameReused] at hmessage
  obtain ⟨what, hwhat, hreused⟩ := h.message_eq
  obtain ⟨hi, hname⟩ := instr_text_inj (hwhat.symm.trans hmessage)
  obtain ⟨name', j', rfl⟩ := hreused (by simp [hname])
  -- the message is about a name, and it tells which one and where it stands
  rw [Offence.message_nameReused] at hmessage
  obtain ⟨rfl, rfl⟩ := name_text_inj (instr_text_inj hmessage).2
  rw [hi]

end Instr.Breaks

/-- The instructions of an index below `i` may all come after those before them. -/
def Code.FitsUpTo (code : Code) (i : Nat) : Prop :=
  ∀ j x, j < i → code[j]? = some x → x.FitsAfter (code.take j)

theorem Code.FitsAfter.at {done code : Code} (h : Code.FitsAfter done code) {j : Nat} {x : Instr}
    (hx : code[j]? = some x) : x.FitsAfter (done ++ code.take j) := by
  induction code generalizing done j with
  | nil => simp at hx
  | cons y rest ih =>
      obtain ⟨hy, hrest⟩ := h
      cases j with
      | zero =>
          cases hx
          simpa using hy
      | succ j =>
          have hfits := ih hrest (j := j) (by simpa using hx)
          rwa [List.append_assoc] at hfits

/-- No two of the instructions that fit introduce one name. -/
theorem Code.FitsUpTo.index_le {code : Code} {i j k : Nat} {x y : Instr} {name : String}
    (h : code.FitsUpTo i) (hj : j < i) (hx : code[j]? = some x) (hxname : x.introduced? = some name)
    (hy : code[k]? = some y) (hyname : y.introduced? = some name) : j ≤ k := by
  refine Nat.le_of_not_lt fun hlt => ?_
  have hearlier : y ∈ code.take j := by
    refine List.mem_of_getElem? (i := k) ?_
    rwa [List.getElem?_take_of_lt hlt]
  exact (h j x hj hx).not_introduced hxname (Code.mem_names_iff.mpr ⟨y, hearlier, hyname⟩)

/-- The instruction a reused name is traced to is the one that introduces it. -/
theorem Code.FitsUpTo.introduced_iff {code : Code} {n i j : Nat} {x : Instr} {name : String}
    (h : code.FitsUpTo n) (hn : n ≤ code.length)
    (hbreaks : x.Breaks (code.take n) (.nameReused i name j)) (k : Nat) :
    (k < i ∧ ∃ y : Instr, code[k]? = some y ∧ y.introduced? = some name) ↔ k = j := by
  cases hbreaks with
  | @name _ y _ _ hname hy hused =>
      rw [List.length_take_of_le hn]
      rw [List.getElem?_take] at hy
      split at hy
      case isFalse => cases hy
      case isTrue hj =>
        constructor
        · rintro ⟨hk, z, hz, hzname⟩
          exact Nat.le_antisymm (h.index_le hk hz hzname hy hused)
            (h.index_le hj hy hused hz hzname)
        · rintro rfl
          exact ⟨hj, y, hy, hused⟩

/-- Either an instruction breaks a rule and those before it are right, or all of
them are and a jump is left open. -/
theorem Code.offence_of_verify {code : Code} {e : Offence} (hids : ∀ id ∈ code.ids, 0 ≤ id)
    (herr : code.verify = .error e) :
    (∃ i x, code.FitsUpTo i ∧ code[i]? = some x ∧ x.Breaks (code.take i) e) ∨
      code.FitsUpTo code.length ∧ ∃ l, code.LeavesOpen l ∧ e = .undefinedLabel l.name := by
  rcases bind_eq_error_iff.mp herr with herr | ⟨seen, hrun, herr⟩
  · obtain ⟨before, x, after, rfl, hfits, hbreaks⟩ :=
      Verify.Seen.tracks_nil.breaks_of_run Verify.Seen.records_nil hids herr
    refine .inl ⟨before.length, x, ?_, by simp, ?_⟩
    · intro j y hj hy
      rw [List.getElem?_append_left hj] at hy
      rw [List.take_append_of_le_length (Nat.le_of_lt hj)]
      exact hfits.at hy
    · simpa using hbreaks
  · obtain ⟨hfits, htracks⟩ := Verify.Seen.tracks_nil.fits_of_run hrun
    refine .inr ⟨fun j x _ hx => hfits.at hx, ?_⟩
    refine htracks.leavesOpen_of_settle (Verify.Seen.records_nil.run hrun) ?_ herr
    exact (Code.open_nil.append hfits).jumps

/-- Which offence is reported. Let no number in the code be negative. A message
about instruction `i` means that the instructions before it may all come after
those before them, and that it may not, for the reason given. One about a name
used at `j` means that of the instructions before `i`, the one at `j` and no other
introduces the name. One about a label means that no instruction breaks a rule,
and it gives the name in the last jump to the smallest label that is not placed. -/
theorem verify_reports_first_offence {code : Code} {e : Offence}
    (hids : ∀ id ∈ code.ids, 0 ≤ id) (herr : code.verify = .error e) :
    ((∃ (i : Nat) (what : String), e.message = "instr " ++ toString i ++ ": " ++ what) ∨
      ∃ name, e.message = "jump to undefined label " ++ name) ∧
    (∀ (i : Nat) (what : String), e.message = "instr " ++ toString i ++ ": " ++ what →
      code.FitsUpTo i ∧ ∃ x, code[i]? = some x ∧ ¬ x.FitsAfter (code.take i) ∧
        x.Breaks (code.take i) e) ∧
    (∀ (i : Nat) (name : String) (j : Nat),
      e.message = "instr " ++ toString i ++ ": " ++ "name " ++ name ++
        " already used at instr " ++ toString j →
      ∀ k, (k < i ∧ ∃ y : Instr, code[k]? = some y ∧ y.introduced? = some name) ↔ k = j) ∧
    ∀ name, e.message = "jump to undefined label " ++ name →
      code.FitsUpTo code.length ∧ ∃ l, code.LeavesOpen l ∧ l.name = name := by
  rcases Code.offence_of_verify hids herr with
    ⟨n, x, hfits, hx, hbreaks⟩ | ⟨hfits, l, hopen, rfl⟩
  · obtain ⟨hn, -⟩ := List.getElem?_eq_some_iff.mp hx
    obtain ⟨what, hwhat, -⟩ := hbreaks.message_eq
    rw [List.length_take_of_le (Nat.le_of_lt hn)] at hwhat
    refine ⟨.inl ⟨n, what, hwhat⟩, ?index, ?name, ?label⟩
    case index =>
      intro i what' hmessage
      obtain ⟨rfl, -⟩ := instr_text_inj (hwhat.symm.trans hmessage)
      exact ⟨hfits, x, hx, hbreaks.not_fits, hbreaks⟩
    case name =>
      intro i name j hmessage
      cases hbreaks.eq_nameReused hmessage
      exact hfits.introduced_iff (Nat.le_of_lt hn) hbreaks
    case label =>
      intro name hmessage
      exact absurd (hwhat.symm.trans hmessage) (instr_text_ne_jump_text n what name)
  · refine ⟨.inr ⟨l.name, rfl⟩, ?index, ?name, ?label⟩
    case index =>
      intro i what hmessage
      exact absurd hmessage.symm (instr_text_ne_jump_text i what l.name)
    case name =>
      intro i name j hmessage
      have hreused : (Offence.undefinedLabel l.name).message =
          (Offence.nameReused i name j).message := hmessage
      rw [Offence.message_nameReused] at hreused
      exact absurd hreused.symm (instr_text_ne_jump_text i _ l.name)
    case label =>
      intro name hmessage
      exact ⟨hfits, l, hopen, (String.append_right_inj _).mp hmessage⟩

/-- Three things are wrong: a label takes the name of a temporary, an instruction
is missing, and no label that is jumped to is placed. -/
def shadowed : Code :=
  [.goto ⟨9, "far"⟩, .goto ⟨4, "near"⟩, .binop ⟨0, "a"⟩ .add (.lit "1") (.var "x"),
    .ifFalse (.temp ⟨0, "a"⟩) ⟨4, "nearer"⟩, .mark ⟨0, "a"⟩, .missing]

/-- The name is reported, with the operator that took it first; without the last
two instructions it is the label of the smaller number, by its later name. -/
theorem shadowed_reports_first_offence :
    (∀ id ∈ shadowed.ids, 0 ≤ id) ∧ shadowed.verify = .error (.nameReused 4 "a" 2) ∧
      shadowed.FitsUpTo 4 ∧
      (∀ k, (k < 4 ∧ ∃ y : Instr, shadowed[k]? = some y ∧ y.introduced? = some "a") ↔ k = 2) ∧
      Code.verify (shadowed.take 4) = .error (.undefinedLabel "nearer") ∧
      ∃ l, Code.LeavesOpen (shadowed.take 4) l ∧ l.name = "nearer" := by
  have hids : ∀ id ∈ shadowed.ids, 0 ≤ id := by decide
  have hname : shadowed.verify = .error (.nameReused 4 "a" 2) := rfl
  have hlabel : Code.verify (shadowed.take 4) = .error (.undefinedLabel "nearer") :=
    failure_eq_some_iff.mp (by decide +kernel)
  obtain ⟨-, hindex, hunique, -⟩ := verify_reports_first_offence hids hname
  obtain ⟨-, -, -, hopen⟩ := verify_reports_first_offence (by decide) hlabel
  exact ⟨hids, hname, (hindex 4 _ (Offence.message_nameReused ..)).1, hunique 4 "a" 2 rfl, hlabel,
    (hopen "nearer" rfl).2⟩

end ThreeAddress
