import ThreeAddress.Text.Bytes

/-!
# Places in a source text

A place is known by its byte offset and by line and column, the latter two
counted from 1. Columns count bytes.
-/

namespace ThreeAddress

/-- A place in a source text. Lexing yields natural numbers only; tokens made
by hand may carry any integers. -/
structure Location where
  offset : Int
  line : Int
  col : Int
  deriving DecidableEq, Repr, Inhabited

namespace Location

/-- The front of a text. -/
def start : Location := ⟨0, 1, 1⟩

/-- The place of no text at all. -/
def none : Location := ⟨0, 0, 0⟩

end Location

end ThreeAddress
