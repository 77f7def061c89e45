import ThreeAddress.Code.Basic

/-!
# What code is made of

The names code declares, the temporaries it assigns and reads, the labels it
places and the labels it jumps to, each in the order of the instructions, and
the operands an instruction reads.
-/

namespace ThreeAddress

/-- The temporary an operand stands for. -/
def Operand.temp? : Operand → Option Temp
  | .temp t => some t
  | _ => none

namespace Instr

/-- The name an instruction declares, with its type. -/
def declared? : Instr → Option (Ty × String)
  | .decl ty name => some (ty, name)
  | _ => none

/-- The temporary an instruction assigns. -/
def assigned? : Instr → Option Temp
  | .binop t .. => some t
  | _ => none

/-- The label an instruction places. -/
def placed? : Instr → Option Label
  | .mark l => some l
  | _ => none

/-- The label an instruction may jump to. -/
def jump? : Instr → Option Label
  | .goto l | .ifFalse _ l => some l
  | _ => none

/-- The label an instruction places or may jump to. -/
def label? : Instr → Option Label
  | .mark l | .goto l | .ifFalse _ l => some l
  | _ => none

/-- The operands an instruction reads. -/
def reads : Instr → List Operand
  | .copy _ x | .ifFalse x _ => [x]
  | .binop _ _ x y => [x, y]
  | _ => []

/-- The temporaries an instruction reads, one entry for each operand. -/
def tempsRead (x : Instr) : List Temp := x.reads.filterMap Operand.temp?

theorem mem_tempsRead {t : Temp} {x : Instr} (h : .temp t ∈ x.reads) : t ∈ x.tempsRead :=
  List.mem_filterMap.mpr ⟨.temp t, h, rfl⟩

theorem tempsRead_of_reads {x : Operand} {y : Instr} (h : y.reads = [x]) :
    y.tempsRead = x.temp?.toList := by
  rw [tempsRead, h]
  cases x <;> rfl

theorem tempsRead_binop (t : Temp) (op : Op) (x y : Operand) :
    (binop t op x y).tempsRead = x.temp?.toList ++ y.temp?.toList := by
  cases x <;> cases y <;> rfl

end Instr

namespace Code

/-- The names the code declares, each with its type. -/
def declared (code : Code) : List (Ty × String) := code.filterMap Instr.declared?

/-- The temporaries the code assigns. -/
def temps (code : Code) : List Temp := code.filterMap Instr.assigned?

/-- The temporaries the code reads, as often as it reads them. -/
def tempsRead (code : Code) : List Temp := code.flatMap Instr.tempsRead

/-- The labels the code places. -/
def marks (code : Code) : List Label := code.filterMap Instr.placed?

/-- The labels the code jumps to. -/
def jumps (code : Code) : List Label := code.filterMap Instr.jump?

/-- The labels the code places or jumps to. -/
def labels (code : Code) : List Label := code.filterMap Instr.label?

/-- The names of the temporaries the code assigns. -/
def tempNames (code : Code) : List String := code.temps.map Temp.name

/-- The names of the labels the code places. -/
def markNames (code : Code) : List String := code.marks.map Label.name

@[simp] theorem declared_nil : declared [] = [] := rfl
@[simp] theorem temps_nil : temps [] = [] := rfl
@[simp] theorem tempsRead_nil : tempsRead [] = [] := rfl
@[simp] theorem marks_nil : marks [] = [] := rfl
@[simp] theorem jumps_nil : jumps [] = [] := rfl
@[simp] theorem labels_nil : labels [] = [] := rfl

@[simp] theorem declared_cons (x : Instr) (code : Code) :
    declared (x :: code) = x.declared?.toList ++ code.declared := by
  cases x <;> rfl

@[simp] theorem temps_cons (x : Instr) (code : Code) :
    temps (x :: code) = x.assigned?.toList ++ code.temps := by
  cases x <;> rfl

@[simp] theorem tempsRead_cons (x : Instr) (code : Code) :
    tempsRead (x :: code) = x.tempsRead ++ code.tempsRead := List.flatMap_cons

@[simp] theorem marks_cons (x : Instr) (code : Code) :
    marks (x :: code) = x.placed?.toList ++ code.marks := by
  cases x <;> rfl

@[simp] theorem jumps_cons (x : Instr) (code : Code) :
    jumps (x :: code) = x.jump?.toList ++ code.jumps := by
  cases x <;> rfl

@[simp] theorem labels_cons (x : Instr) (code : Code) :
    labels (x :: code) = x.label?.toList ++ code.labels := by
  cases x <;> rfl

@[simp] theorem declared_append (code more : Code) :
    declared (code ++ more) = code.declared ++ more.declared := List.filterMap_append

@[simp] theorem temps_append (code more : Code) :
    temps (code ++ more) = code.temps ++ more.temps := List.filterMap_append

@[simp] theorem tempsRead_append (code more : Code) :
    tempsRead (code ++ more) = code.tempsRead ++ more.tempsRead := List.flatMap_append

@[simp] theorem marks_append (code more : Code) :
    marks (code ++ more) = code.marks ++ more.marks := List.filterMap_append

@[simp] theorem jumps_append (code more : Code) :
    jumps (code ++ more) = code.jumps ++ more.jumps := List.filterMap_append

@[simp] theorem labels_append (code more : Code) :
    labels (code ++ more) = code.labels ++ more.labels := List.filterMap_append

theorem mem_temps_iff {code : Code} {t : Temp} :
    t ∈ code.temps ↔ ∃ op l r, .binop t op l r ∈ code := by
  rw [temps, List.mem_filterMap]
  constructor
  · rintro ⟨x, hx, ht⟩
    cases x with
    | binop u op l r =>
        cases ht
        exact ⟨op, l, r, hx⟩
    | decl | copy | mark | goto | ifFalse | missing => cases ht
  · rintro ⟨op, l, r, hx⟩
    exact ⟨.binop t op l r, hx, rfl⟩

@[simp] theorem tempNames_append (code more : Code) :
    tempNames (code ++ more) = code.tempNames ++ more.tempNames := by
  simp [tempNames]

@[simp] theorem markNames_append (code more : Code) :
    markNames (code ++ more) = code.markNames ++ more.markNames := by
  simp [markNames]

end Code

end ThreeAddress
