import ThreeAddress.Text.ByteMask

/-!
# Bytes of a source text

A source text is a list of bytes, valid UTF-8 or not. Everything the language
is written in is ASCII, so the character classes are classes of bytes, and a
run of such bytes is a string of as many characters.
-/

namespace ThreeAddress

/-- A source text. -/
abbrev Bytes := List UInt8

/-- The UTF-8 bytes of a string. -/
def Bytes.ofString (s : String) : Bytes := s.toUTF8.data.toList

/-- The string that has the bytes, read one by one, as its characters. For
ASCII bytes this inverts `Bytes.ofString`. -/
def Bytes.ascii (bs : Bytes) : String := String.ofList (bs.map Char.ofUInt8)

/-- The bytes that only separate tokens: space, tab, carriage return, line
feed, form feed, vertical tab. -/
def blanks : ByteMask :=
  [32, 9, 13, 10, 12, 11].foldl ByteMask.insert ByteMask.empty

def isBlank (b : UInt8) : Bool := blanks.contains b

/-- Line feed, which ends a line. -/
def newline : UInt8 := 10

/-- What a word starts with: an ASCII letter or an underscore. -/
def isLetter (b : UInt8) : Bool := (Char.ofUInt8 b).isAlpha || Char.ofUInt8 b == '_'

def isDigit (b : UInt8) : Bool := (Char.ofUInt8 b).isDigit

/-- What a word goes on with. -/
def isWordByte (b : UInt8) : Bool := isLetter b || isDigit b

end ThreeAddress
