import ThreeAddress.Bitmap
import ThreeAddress.Code.Basic

/-!
# Checking code

`Code.verify` reads the code once from the front and reports the first thing
that is wrong with it:

* every temporary is assigned once, and before the instructions that read it;
* every label is placed once, and every jump goes to a label placed somewhere;
* the names of temporaries and labels are all different.

Jumps are settled last, when all labels are known.
-/

namespace ThreeAddress

/-- What can be wrong with code, with the index of the instruction where one
is to blame. -/
inductive Offence where
  | unknownOperator (index : Nat) (op : Op)
  | readBeforeAssignment (index : Nat) (temp : String)
  | assignedTwice (index : Nat) (temp : String)
  | placedTwice (index : Nat) (label : String)
  | nameReused (index : Nat) (name : String) (first : Nat)
  | missingInstruction (index : Nat)
  | undefinedLabel (label : String)
  /-- Temporaries and labels are numbered from 0. -/
  | negativeId (id : Int)
  deriving DecidableEq, Repr

namespace Offence

def ofNegative (e : Bitmap.NegativeElement) : Offence := .negativeId e.value

def message : Offence → String
  | .unknownOperator i op => opening i ++ "unknown operator " ++ op.symbol
  | .readBeforeAssignment i t => opening i ++ "temp " ++ t ++ " read before assignment"
  | .assignedTwice i t => opening i ++ "temp " ++ t ++ " assigned twice"
  | .placedTwice i l => opening i ++ "label " ++ l ++ " placed twice"
  | .nameReused i n j => opening i ++ "name " ++ n ++ " already used at instr " ++ toString j
  | .missingInstruction i => opening i ++ "unsupported instruction: <nil>"
  | .undefinedLabel l => "jump to undefined label " ++ l
  | .negativeId id => (Bitmap.NegativeElement.mk id).message
where
  opening (index : Nat) : String := "instr " ++ toString index ++ ": "

end Offence

namespace Verify

/-- What the instructions read so far have defined and asked for. -/
structure Seen where
  /-- Temporaries assigned. -/
  temps : Bitmap := .empty
  /-- Labels placed. -/
  marked : Bitmap := .empty
  /-- Labels jumped to. -/
  jumped : Bitmap := .empty
  /-- Names introduced, each with the instruction that did. -/
  names : List (String × Nat) := []
  /-- Jumps met, the latest first. -/
  jumps : List Label := []
  deriving Repr

namespace Seen

def isAssigned (seen : Seen) (id : Int) : Except Offence Bool :=
  (seen.temps.isSet id).mapError .ofNegative

def isMarked (seen : Seen) (id : Int) : Except Offence Bool :=
  (seen.marked.isSet id).mapError .ofNegative

/-- The temporary an operand reads too early, if it does. -/
def unassigned? (seen : Seen) : Operand → Except Offence (Option String)
  | .temp t => do return if ← seen.isAssigned t.id then none else some t.name
  | _ => .ok none

/-- Reads an operand at an instruction. -/
def read (seen : Seen) (index : Nat) (x : Operand) : Except Offence Unit := do
  match ← seen.unassigned? x with
  | none => return
  | some name => throw (.readBeforeAssignment index name)

/-- Takes a name that nothing has taken before. -/
def introduce (seen : Seen) (index : Nat) (name : String) : Except Offence Seen :=
  match seen.names.lookup name with
  | some first => .error (.nameReused index name first)
  | none => .ok { seen with names := (name, index) :: seen.names }

/-- Assigns a temporary at an instruction. -/
def assign (seen : Seen) (index : Nat) (t : Temp) : Except Offence Seen := do
  if ← seen.isAssigned t.id then throw (.assignedTwice index t.name)
  let seen ← seen.introduce index t.name
  return { seen with temps := ← (seen.temps.set t.id).mapError .ofNegative }

/-- Places a label at an instruction. -/
def place (seen : Seen) (index : Nat) (l : Label) : Except Offence Seen := do
  if ← seen.isMarked l.id then throw (.placedTwice index l.name)
  let seen ← seen.introduce index l.name
  return { seen with marked := ← (seen.marked.set l.id).mapError .ofNegative }

/-- Notes a jump. -/
def jump (seen : Seen) (l : Label) : Except Offence Seen := do
  return { seen with
    jumped := ← (seen.jumped.set l.id).mapError .ofNegative
    jumps := l :: seen.jumps }

/-- Reads one instruction. A conditional jump is noted before a late operand
is reported. -/
def step (seen : Seen) (index : Nat) : Instr → Except Offence Seen
  | .decl .. => .ok seen
  | .copy _ src => do
    seen.read index src
    return seen
  | .binop dst op l r => do
    if !op.isValid then throw (.unknownOperator index op)
    seen.read index l
    seen.read index r
    seen.assign index dst
  | .mark l => seen.place index l
  | .goto l => seen.jump l
  | .ifFalse cond l => do
    let late ← seen.unassigned? cond
    let seen ← seen.jump l
    match late with
    | none => return seen
    | some name => throw (.readBeforeAssignment index name)
  | .missing => .error (.missingInstruction index)

/-- Reads instructions, the first of which has the given index. -/
def run (seen : Seen) (index : Nat) : Code → Except Offence Seen
  | [] => .ok seen
  | x :: xs => do
    let seen ← seen.step index x
    seen.run (index + 1) xs

/-- Settles the jumps: the smallest label that was jumped to and not placed is
reported by the name of the last jump to it. -/
def settle (seen : Seen) : Except Offence Unit :=
  match (seen.jumped.sdiff seen.marked).first? with
  | none => .ok ()
  | some id => .error (.undefinedLabel
      ((seen.jumps.find? fun l => l.id = Int.ofNat id).elim "" Label.name))

end Seen

end Verify

/-- Checks code and reports the first offence. -/
def Code.verify (code : Code) : Except Offence Unit := do
  let seen ← Verify.Seen.run {} 0 code
  seen.settle

end ThreeAddress
