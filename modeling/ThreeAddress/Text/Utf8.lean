import ThreeAddress.Text.Bytes

/-!
# Characters in a byte text

Reads the character that stands at the front of a text. Where the bytes there
are no UTF-8 (overlong forms, surrogates, values past the last code point, cut
or stray sequences), the first byte alone is taken for the replacement
character.
-/

namespace ThreeAddress.Utf8

/-- Stands for a byte that is no part of a character. -/
def replacement : Char := '�'

/-- The character encoded at the front of the text, if there is one. No
encoding is longer than four bytes. -/
def decode? (bs : Bytes) : Option Char :=
  (ByteArray.mk (bs.take 4).toArray).utf8DecodeChar? 0

/-- The character at the front of the text and the number of bytes it takes. -/
def front (bs : Bytes) : Char × Nat :=
  match decode? bs with
  | some c => (c, c.utf8Size)
  | none => (replacement, 1)

theorem front_width_pos (bs : Bytes) : 0 < (front bs).2 := by
  unfold front
  split
  · exact Char.utf8Size_pos _
  · exact Nat.one_pos

end ThreeAddress.Utf8
