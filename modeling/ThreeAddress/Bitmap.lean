/-!
# Bitmaps

A finite set of natural numbers, one bit per number, in an array of 64-bit
words that grows as needed. A bitmap nothing was ever put into has no words at
all, which sets it apart from one that was emptied.

The elements are found word by word: the lowest bit of a word is read off and
cleared until the word is zero (`Bitmap.bitsOf`).

Callers hand in integers; a negative one is refused (`Bitmap.element`).
-/

namespace ThreeAddress

/-- A finite set of natural numbers: `n` is an element if bit `n % 64` of word
`n / 64` is set. -/
structure Bitmap where
  words : Array UInt64 := #[]
  deriving DecidableEq, Repr

namespace Bitmap

/-- Refusal of a negative element. -/
structure NegativeElement where
  value : Int
  deriving DecidableEq, Repr

def NegativeElement.message (e : NegativeElement) : String := toString e.value

/-- The natural number an integer stands for. -/
def element (i : Int) : Except NegativeElement Nat :=
  if i < 0 then .error ⟨i⟩ else .ok i.toNat

/-! ## Membership -/

/-- The set without elements. -/
def empty : Bitmap := {}

/-- Word `i`; beyond the last word all bits are clear. -/
def word (s : Bitmap) (i : Nat) : UInt64 := s.words.getD i 0

/-- Membership. -/
def contains (s : Bitmap) (n : Nat) : Bool := (s.word (n / 64)).toNat.testBit (n % 64)

/-- The word that has just bit `j` set. -/
def bit (j : Nat) : UInt64 := 1 <<< j.toUInt64

/-- The set with `n` added. Words that are missing up to that of `n` are added as
zeros. A set without words that needs just one may take it from a word kept inline,
and copies nothing; that word is zero too, so there is one rule for both. -/
def insert (s : Bitmap) (n : Nat) : Bitmap :=
  let i := n / 64
  let grown := s.words ++ Array.replicate (i + 1 - s.words.size) 0
  ⟨grown.modify i (· ||| bit (n % 64))⟩

/-- The elements of `s` that are not elements of `x`. -/
def sdiff (s x : Bitmap) : Bitmap :=
  ⟨s.words.mapIdx fun i w => w &&& ~~~x.word i⟩

/-! ## Bits of a word -/

theorem testBit_bit {j : Nat} (hj : j < 64) (k : Nat) :
    (bit j).toNat.testBit k = decide (k = j) := by
  have hlt : 2 ^ j < 2 ^ 64 := Nat.pow_lt_pow_right (by decide) hj
  have hshift : j.toUInt64.toNat = j := by
    show j % 2 ^ 64 = j
    omega
  have hbit : (bit j).toNat = 2 ^ j := by
    rw [bit, UInt64.toNat_shiftLeft, hshift, Nat.mod_eq_of_lt hj, UInt64.toNat_one,
      Nat.one_shiftLeft, Nat.mod_eq_of_lt hlt]
  rw [hbit, Nat.testBit_two_pow, decide_eq_decide]
  exact eq_comm

theorem testBit_and_not (w v : UInt64) (k : Nat) :
    (w &&& ~~~v).toNat.testBit k = (w.toNat.testBit k && !v.toNat.testBit k) := by
  -- the complement is taken within a word, so it is opened as a vector of 64 bits
  show (w.toBitVec &&& ~~~v.toBitVec).getLsbD k = (w.toBitVec.getLsbD k && !v.toBitVec.getLsbD k)
  rw [BitVec.getLsbD_and, BitVec.getLsbD_not]
  by_cases hk : k < 64
  · rw [decide_eq_true hk, Bool.true_and]
  · rw [BitVec.getLsbD_of_ge w.toBitVec k (Nat.le_of_not_lt hk), Bool.false_and, Bool.false_and]

/-- The position of the lowest bit set in a word; 64 if there is none. -/
def lowest (w : UInt64) : Nat := w.toBitVec.ctz.toNat

/-- The word with its lowest bit cleared. -/
def clearLowest (w : UInt64) : UInt64 := w &&& ~~~bit (lowest w)

section

variable {w : UInt64}

theorem toBitVec_ne_zero (h : w ≠ 0) : w.toBitVec ≠ 0#64 :=
  fun hzero => h (UInt64.toBitVec_inj.mp hzero)

theorem lowest_lt (h : w ≠ 0) : lowest w < 64 :=
  BitVec.ctz_lt_iff_ne_zero.mpr (toBitVec_ne_zero h)

theorem testBit_lowest (h : w ≠ 0) : w.toNat.testBit (lowest w) = true :=
  BitVec.getLsbD_true_ctz_of_ne_zero (toBitVec_ne_zero h)

theorem testBit_of_lt_lowest {k : Nat} (hk : k < lowest w) : w.toNat.testBit k = false :=
  BitVec.getLsbD_false_of_lt_ctz hk

theorem testBit_clearLowest (h : w ≠ 0) (k : Nat) :
    (clearLowest w).toNat.testBit k = (w.toNat.testBit k && !decide (k = lowest w)) := by
  rw [clearLowest, testBit_and_not, testBit_bit (lowest_lt h)]

/-- Clearing a bit that is set makes a word smaller. -/
theorem clearLowest_lt (h : w ≠ 0) : (clearLowest w).toNat < w.toNat := by
  refine Nat.lt_of_le_of_ne ?_ fun heq => ?_
  · rw [clearLowest, UInt64.toNat_and]
    exact Nat.and_le_left
  · have hclear := testBit_clearLowest h (lowest w)
    rw [heq, testBit_lowest h] at hclear
    simp at hclear

end

/-- The positions of the bits set in a word, in increasing order. -/
def bitsOf (w : UInt64) : List Nat :=
  if _ : w = 0 then [] else lowest w :: bitsOf (clearLowest w)
termination_by w.toNat
decreasing_by exact clearLowest_lt ‹_›

/-! ## Elements in order -/

/-- The elements in increasing order. -/
def elements (s : Bitmap) : List Nat :=
  s.words.toList.zipIdx.flatMap fun (w, i) => (bitsOf w).map (64 * i + ·)

/-- The smallest element. -/
def first? (s : Bitmap) : Option Nat := do
  let i ← s.words.findIdx? (· ≠ 0)
  return 64 * i + lowest (s.word i)

/-- Visits numbers in order, passing a state along, until a visit says to
stop. -/
def visitAll {σ : Type} (f : σ → Nat → σ × Bool) : σ → List Nat → σ
  | state, [] => state
  | state, n :: ns =>
    match f state n with
    | (state, true) => visitAll f state ns
    | (state, false) => state

/-- Visits the elements in increasing order, passing a state along, and stops
right after the first visit that says so. -/
def visit {σ : Type} (s : Bitmap) (f : σ → Nat → σ × Bool) (state : σ) : σ :=
  visitAll f state s.elements

/-- Whether anything was ever put into the set. -/
def wasSet (s : Bitmap) : Bool := !s.words.isEmpty

/-! ## Integers -/

/-- The set with an integer added. -/
def set (s : Bitmap) (i : Int) : Except NegativeElement Bitmap := (element i).map s.insert

/-- Membership of an integer. -/
def isSet (s : Bitmap) (i : Int) : Except NegativeElement Bool := (element i).map s.contains

end Bitmap

end ThreeAddress
