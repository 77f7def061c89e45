import ThreeAddress.Bitmap
import ThreeAddress.Code.Basic
import ThreeAddress.Token.Basic

/-!
# The wire format of the log

Values go to the log as bytes. They are put together from the parts an `Encoder`
writes: integers, strings, the heads of maps, arrays that do not tell their
length.

In the encoder of the log (`Encoder.compact`) a part starts with a head: a byte
whose upper three bits say what follows and whose lower five bits hold a number,
or say in how many bytes, the highest first, the number comes after.
-/

namespace ThreeAddress.Wire

/-! ## Parts -/

/-- How the parts of a value are written. -/
structure Encoder where
  /-- The head of a map of so many pairs. -/
  openMap : Nat → Bytes
  int : Int → Bytes
  string : Bytes → Bytes
  /-- Opens an array whose length is not told. -/
  openArray : Bytes
  /-- Closes such an array. -/
  stop : Bytes
  /-- No value. -/
  nil : Bytes

/-- What goes to the log of a token. Its text may be any bytes. -/
structure TokenEntry where
  kind : Kind
  text : Bytes
  offset : Int
  deriving DecidableEq, Repr

namespace Encoder

variable (e : Encoder)

def text (s : String) : Bytes := e.string (.ofString s)

def array (items : List Bytes) : Bytes := e.openArray ++ items.flatten ++ e.stop

/-- A token is a map of its kind, its text and its offset. -/
def entry (t : TokenEntry) : Bytes :=
  e.openMap 3 ++
    (e.text "kind" ++ e.text t.kind.name) ++
    (e.text "text" ++ e.string t.text) ++
    (e.text "pos" ++ e.int t.offset)

/-- Lines, which may be any bytes, are an array of strings. -/
def lines (ls : List Bytes) : Bytes := e.array (ls.map e.string)

end Encoder

/-! ## Heads -/

/-- The last `count` bytes of a number, the highest first. -/
def bigEndian : (count n : Nat) → Bytes
  | 0, _ => []
  | count + 1, n => bigEndian count (n / 256) ++ [n.toUInt8]

def majorInt : UInt8 := 0x00
def majorNegative : UInt8 := 0x20
def majorString : UInt8 := 0x60
def majorArray : UInt8 := 0x80
def majorMap : UInt8 := 0xa0

/-- The byte that opens an array whose length is not told. -/
def openByte : UInt8 := majorArray ||| 31

/-- The byte that closes such an array. -/
def stopByte : UInt8 := 0xff

/-- The byte for no value. -/
def nilByte : UInt8 := 0xf6

/-- A head with a number in as few bytes as it fits in. -/
def head (major : UInt8) (n : Nat) : Bytes :=
  if n < 24 then [major ||| n.toUInt8]
  else if n < 0x100 then (major ||| 24) :: bigEndian 1 n
  else if n < 0x10000 then (major ||| 25) :: bigEndian 2 n
  else if n < 0x100000000 then (major ||| 26) :: bigEndian 4 n
  else (major ||| 27) :: bigEndian 8 n

/-- The encoder of the log. A negative integer is written as its absolute value
and one. -/
def Encoder.compact : Encoder where
  openMap := head majorMap
  int i := if i < 0 then head majorNegative (i.natAbs + 1) else head majorInt i.natAbs
  string bs := head majorString bs.length ++ bs
  openArray := [openByte]
  stop := [stopByte]
  nil := [nilByte]

/-! ## Values -/

def token (t : Token) (e : Encoder := .compact) : Bytes :=
  e.entry ⟨t.kind, .ofString t.text, t.loc.offset⟩

def code (c : Code) (e : Encoder := .compact) : Bytes := e.lines (c.lines.map .ofString)

/-- A bitmap is an array of its elements, or no value if nothing was ever put
into it. -/
def bitmap (s : Bitmap) (e : Encoder := .compact) : Bytes :=
  if s.wasSet then e.array (s.elements.map fun n : Nat => e.int n) else e.nil

end ThreeAddress.Wire
