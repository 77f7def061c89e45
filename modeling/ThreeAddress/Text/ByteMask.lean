/-!
# Sets of low bytes

A `ByteMask` is a set of bytes below 64, one bit per byte in a single word.
Membership is a shift and a test, which is what the lexer wants for blanks.
-/

namespace ThreeAddress

/-- A set of bytes below 64: bit `b` of the word says whether `b` belongs. -/
structure ByteMask where
  bits : UInt64
  deriving DecidableEq, Repr

namespace ByteMask

/-- Refusal of a byte that a mask has no bit for. -/
structure TooHigh where
  byte : UInt8
  deriving DecidableEq, Repr

def TooHigh.message (_ : TooHigh) : String := "too high char code"

def empty : ByteMask := ⟨0⟩

/-- The mask with bit `b` set. Meaningful below 64 only; `ofBytes` sees to that. -/
def insert (m : ByteMask) (b : UInt8) : ByteMask :=
  ⟨m.bits ||| ((1 : UInt64) <<< b.toUInt64)⟩

/-- The mask of the listed bytes, refusing the first one from 64 up. -/
def ofBytes (bs : List UInt8) : Except TooHigh ByteMask :=
  bs.foldlM (fun m b => if b < 64 then .ok (m.insert b) else .error ⟨b⟩) empty

/-- Membership; bytes from 64 up belong to no mask. -/
def contains (m : ByteMask) (b : UInt8) : Bool :=
  b < 64 && (m.bits &&& ((1 : UInt64) <<< b.toUInt64)) != 0

end ByteMask

end ThreeAddress
