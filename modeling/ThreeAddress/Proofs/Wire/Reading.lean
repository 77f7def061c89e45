import Mathlib.Algebra.Ring.Nat
import ThreeAddress.Wire

/-!
# Reading the wire format

A `Reader` takes a value off the front of some bytes and returns it with the
bytes that are left. It reads what was written if it returns the value and, of
the bytes after it, touches none (`Reader.Reads`). Readers that do so can be put
one after the other (`Reads.bind`), so that a reader of a value made of several
parts is right as soon as the readers of its parts are.

What an encoder has to do for this is said by `Encoder.Lawful`: what it writes are
heads (`IsHead`) and the bytes of strings. An array that does not tell its length is
read up to the byte that closes it. That works because no value begins with this
byte (`IsHead.opens`).
-/

namespace ThreeAddress.Wire

/-- Takes a value off the front of some bytes. -/
abbrev Reader (α : Type) := StateT Bytes Option α

variable {α β : Type}

/-! ## Readers and what was written -/

/-- The reader takes `written` for `a`, whatever comes after it. -/
def Reader.Reads (r : Reader α) (written : Bytes) (a : α) : Prop :=
  ∀ rest, r.run (written ++ rest) = some (a, rest)

section

variable {r : Reader α} {f : α → Reader β} {written more : Bytes} {a : α} {b : β}

theorem reads_pure (a : α) : (pure a : Reader α).Reads [] a := fun _ => rfl

theorem Reader.Reads.bind (h : r.Reads written a) (hf : (f a).Reads more b) :
    (r >>= f).Reads (written ++ more) b := by
  intro rest
  rw [List.append_assoc, StateT.run_bind, h (more ++ rest)]
  exact hf rest

/-- The last part of a value. -/
theorem Reader.Reads.finish (h : r.Reads written a) (hf : (f a).Reads [] b) :
    (r >>= f).Reads written b := by
  simpa using h.bind hf

theorem Reader.Reads.map (h : r.Reads written a) (g : α → β) : (g <$> r).Reads written (g a) := by
  intro rest
  rw [StateT.run_map, h rest]
  rfl

/-- What two values are written as can only be the same up to its end if the values
are the same. -/
theorem Reader.Reads.unique {a' : α} {written' rest rest' : Bytes} (h : r.Reads written a)
    (h' : r.Reads written' a') (hsame : written ++ rest = written' ++ rest') :
    a = a' ∧ rest = rest' := by
  have hread := h rest
  rw [hsame, h' rest'] at hread
  cases hread
  exact ⟨rfl, rfl⟩

end

/-! ## Bytes and numbers -/

/-- Goes on if the condition holds. -/
def check (p : Prop) [Decidable p] : Reader Unit := fun bs => if p then some ((), bs) else none

theorem reads_check {p : Prop} [Decidable p] (h : p) : (check p).Reads [] () := by
  intro rest
  show (if p then some ((), rest) else none) = _
  rw [if_pos h]

/-- What an optional value holds, if it holds something. -/
def the (a? : Option α) : Reader α := fun bs => a?.map (·, bs)

theorem reads_the {a? : Option α} {a : α} (h : a? = some a) : (the a?).Reads [] a := by
  intro rest
  subst h
  rfl

/-- So many bytes. -/
def readBytes (count : Nat) : Reader Bytes := fun bs =>
  if count ≤ bs.length then some (bs.take count, bs.drop count) else none

theorem reads_bytes {bs : Bytes} {count : Nat} (h : bs.length = count) :
    (readBytes count).Reads bs bs := by
  intro rest
  subst h
  show (if bs.length ≤ (bs ++ rest).length then _ else none) = _
  rw [if_pos (by simp), List.take_left, List.drop_left]

def readByte : Reader UInt8
  | [] => none
  | b :: bs => some (b, bs)

theorem reads_byte (b : UInt8) : readByte.Reads [b] b := fun _ => rfl

/-- The number that bytes spell, the highest first. -/
def ofBigEndian (bs : Bytes) : Nat := bs.foldl (fun n b => 256 * n + b.toNat) 0

theorem length_bigEndian (count n : Nat) : (bigEndian count n).length = count := by
  induction count generalizing n with
  | zero => rfl
  | succ count ih => simp [bigEndian, ih]

theorem ofBigEndian_bigEndian (count n : Nat) : ofBigEndian (bigEndian count n) = n % 256 ^ count := by
  induction count generalizing n with
  | zero => simp [bigEndian, ofBigEndian, Nat.mod_one]
  | succ count ih =>
      have hlast : n.toUInt8.toNat = n % 256 := rfl
      rw [bigEndian, ofBigEndian, List.foldl_append, ← ofBigEndian, ih]
      show 256 * (n / 256 % 256 ^ count) + n.toUInt8.toNat = n % 256 ^ (count + 1)
      rw [hlast, Nat.pow_succ, Nat.mul_comm (256 ^ count) 256, Nat.mod_mul]
      omega

/-! ## Heads -/

/-- The number of a head, from the lower bits of its first byte. -/
def readNumber (low : Nat) : Reader Nat :=
  if low < 24 then pure low
  else do
    check (low < 28)
    ofBigEndian <$> readBytes (2 ^ (low - 24))

/-- The upper bits of the first byte, in their place, and the number. -/
def readHead : Reader (Nat × Nat) := do
  let first ← readByte
  let n ← readNumber (first.toNat % 32)
  return (first.toNat / 32 * 32, n)

/-- The bytes are a head with the number: its lower bits are the number, or tell in
how many bytes it comes next. In how few it could come does not matter to a reader. -/
inductive IsHead (major : UInt8) : Nat → Bytes → Prop
  | low {n : Nat} : n < 24 → IsHead major n [major ||| n.toUInt8]
  | wide {width : Nat} {bs : Bytes} : width < 4 → bs.length = 2 ^ width →
      IsHead major (ofBigEndian bs) ((major ||| (24 + width).toUInt8) :: bs)

/-- The lower bits do not run into the upper ones. -/
theorem toNat_or_low {major : UInt8} (hmajor : major.toNat % 32 = 0) {low : Nat} (hlow : low < 32) :
    (major ||| low.toUInt8).toNat = major.toNat + low := by
  have hbyte : low.toUInt8.toNat = low := Nat.mod_eq_of_lt (by omega)
  obtain ⟨k, hk⟩ := Nat.dvd_of_mod_eq_zero hmajor
  rw [UInt8.toNat_or, hbyte, hk, show 32 * k = 2 ^ 5 * k from rfl,
    ← Nat.two_pow_add_eq_or_of_lt hlow]

section

variable {major : UInt8} {n : Nat} {bs : Bytes}

/-- The lower bits of the first byte say how to read the number from the bytes
after it. -/
theorem IsHead.eq_cons (h : IsHead major n bs) :
    ∃ low more, low < 28 ∧ bs = (major ||| low.toUInt8) :: more ∧
      (readNumber low).Reads more n := by
  cases h with
  | low hn =>
      refine ⟨n, [], by omega, rfl, ?_⟩
      rw [readNumber, if_pos hn]
      exact reads_pure n
  | @wide width bs hwidth hlen =>
      refine ⟨24 + width, bs, by omega, rfl, ?_⟩
      rw [readNumber, if_neg (by omega), Nat.add_sub_cancel_left]
      exact (reads_check (by omega)).bind ((reads_bytes hlen).map ofBigEndian)

theorem IsHead.reads (h : IsHead major n bs) (hmajor : major.toNat % 32 = 0) :
    readHead.Reads bs (major.toNat, n) := by
  obtain ⟨low, more, hlow, rfl, hnumber⟩ := h.eq_cons
  have hfirst := toNat_or_low hmajor (show low < 32 by omega)
  have hmod : (major ||| low.toUInt8).toNat % 32 = low := by omega
  have hdiv : (major ||| low.toUInt8).toNat / 32 * 32 = major.toNat := by omega
  refine (reads_byte _).bind (Reader.Reads.finish (a := n) ?_ ?_)
  · rw [hmod]
    exact hnumber
  · rw [hdiv]
    exact reads_pure _

/-- The bytes begin with one that does not close an array. -/
def Opens (bs : Bytes) : Prop := ∃ b more, bs = b :: more ∧ b ≠ stopByte

theorem Opens.append (h : Opens bs) (more : Bytes) : Opens (bs ++ more) := by
  obtain ⟨b, rest, rfl, hb⟩ := h
  exact ⟨b, rest ++ more, rfl, hb⟩

theorem IsHead.opens (h : IsHead major n bs) (hmajor : major.toNat % 32 = 0) : Opens bs := by
  obtain ⟨low, more, hlow, rfl, -⟩ := h.eq_cons
  refine ⟨_, more, rfl, fun hstop => ?_⟩
  -- the byte that closes an array has all lower bits set
  have hfirst := toNat_or_low hmajor (show low < 32 by omega)
  rw [hstop] at hfirst
  have hff : stopByte.toNat = 255 := rfl
  omega

end

/-! ## Encoders -/

/-- The text is no longer than a head can say. -/
def Fits (bs : Bytes) : Prop := bs.length < 2 ^ 64

instance (bs : Bytes) : Decidable (Fits bs) := inferInstanceAs (Decidable (_ < _))

/-- The encoder writes what the log prescribes, as long as the numbers fit into
heads. -/
structure Encoder.Lawful (e : Encoder) : Prop where
  map_head : ∀ {pairs : Nat}, pairs < 2 ^ 64 → IsHead majorMap pairs (e.openMap pairs)
  nat_head : ∀ {n : Nat}, n < 2 ^ 64 → IsHead majorInt n (e.int n)
  negative_head : ∀ {n : Nat}, 0 < n → n + 1 < 2 ^ 64 → IsHead majorNegative (n + 1) (e.int (-n))
  string_head : ∀ {bs : Bytes}, Fits bs →
    ∃ front, IsHead majorString bs.length front ∧ e.string bs = front ++ bs
  openArray_eq : e.openArray = [openByte]
  stop_eq : e.stop = [stopByte]
  nil_eq : e.nil = [nilByte]

theorem isHead_wide (major : UInt8) (width : Nat) {n : Nat} (hwidth : width < 4)
    (hn : n < 256 ^ 2 ^ width) :
    IsHead major n ((major ||| (24 + width).toUInt8) :: bigEndian (2 ^ width) n) := by
  have hhead : IsHead major _ ((major ||| (24 + width).toUInt8) :: bigEndian (2 ^ width) n) :=
    .wide hwidth (length_bigEndian (2 ^ width) n)
  rwa [ofBigEndian_bigEndian, Nat.mod_eq_of_lt hn] at hhead

theorem isHead_head {major : UInt8} {n : Nat} (hn : n < 2 ^ 64) : IsHead major n (head major n) := by
  unfold head
  split
  · exact .low ‹_›
  split
  · exact isHead_wide major 0 (by omega) ‹_›
  split
  · exact isHead_wide major 1 (by omega) ‹_›
  split
  · exact isHead_wide major 2 (by omega) ‹_›
  · exact isHead_wide major 3 (by omega) hn

theorem compact_int (i : Int) : Encoder.compact.int i =
    if i < 0 then head majorNegative (i.natAbs + 1) else head majorInt i.natAbs := rfl

theorem compact_lawful : Encoder.compact.Lawful where
  map_head := isHead_head
  nat_head hn := by
    rw [compact_int, if_neg (by omega), Int.natAbs_natCast]
    exact isHead_head hn
  negative_head hpos hn := by
    rw [compact_int, if_pos (by omega), Int.natAbs_neg, Int.natAbs_natCast]
    exact isHead_head hn
  string_head hbs := ⟨_, isHead_head hbs, rfl⟩
  openArray_eq := rfl
  stop_eq := rfl
  nil_eq := rfl

/-! ## Integers and strings -/

/-- A natural number. -/
def readNat : Reader Nat := do
  let (major, n) ← readHead
  check (major = majorInt.toNat)
  return n

/-- An integer. -/
def readInt : Reader Int := do
  let (major, n) ← readHead
  check (major = majorInt.toNat ∨ major = majorNegative.toNat)
  return if major = majorInt.toNat then (n : Int) else 1 - (n : Int)

def readString : Reader Bytes := do
  let (major, n) ← readHead
  check (major = majorString.toNat)
  readBytes n

namespace Encoder.Lawful

variable {e : Encoder} (he : e.Lawful)

include he

theorem reads_nat {n : Nat} (hn : n < 2 ^ 64) : readNat.Reads (e.int n) n :=
  ((he.nat_head hn).reads rfl).finish ((reads_check rfl).finish (reads_pure n))

theorem opens_nat {n : Nat} (hn : n < 2 ^ 64) : Opens (e.int n) := (he.nat_head hn).opens rfl

theorem reads_int {i : Int} (hi : i.natAbs + 1 < 2 ^ 64) : readInt.Reads (e.int i) i := by
  rcases Int.lt_or_le i 0 with hneg | hnonneg
  · obtain ⟨n, rfl⟩ := Int.exists_eq_neg_ofNat (Int.le_of_lt hneg)
    have hhead : IsHead majorNegative (n + 1) (e.int (-n)) := he.negative_head (by omega) (by omega)
    refine (hhead.reads rfl).finish ((reads_check (.inr rfl)).finish ?_)
    rw [if_neg (by decide), show 1 - ((n + 1 : Nat) : Int) = -n by omega]
    exact reads_pure _
  · obtain ⟨n, rfl⟩ := Int.eq_ofNat_of_zero_le hnonneg
    have hhead : IsHead majorInt n (e.int n) := he.nat_head (by omega)
    exact (hhead.reads rfl).finish ((reads_check (.inl rfl)).finish (reads_pure _))

theorem reads_string {bs : Bytes} (hbs : Fits bs) : readString.Reads (e.string bs) bs := by
  obtain ⟨front, hhead, hstring⟩ := he.string_head hbs
  rw [hstring]
  exact (hhead.reads rfl).bind ((reads_check rfl).bind (reads_bytes rfl))

theorem opens_string {bs : Bytes} (hbs : Fits bs) : Opens (e.string bs) := by
  obtain ⟨front, hhead, hstring⟩ := he.string_head hbs
  rw [hstring]
  exact (hhead.opens rfl).append bs

end Encoder.Lawful

/-! ## Arrays -/

/-- Items up to the byte that closes the array. An item has to take something off
the bytes, or there would be no end to them. -/
def readItems (item : Reader α) (bs : Bytes) : Option (List α × Bytes) :=
  match bs with
  | [] => none
  | b :: more =>
    if b = stopByte then some ([], more)
    else
      match item.run (b :: more) with
      | none => none
      | some (a, left) =>
        if left.length < (b :: more).length then
          (readItems item left).map fun (as, rest) => (a :: as, rest)
        else none
termination_by bs.length
decreasing_by assumption

/-- An array that does not tell its length. -/
def readArray (item : Reader α) : Reader (List α) := do
  let first ← readByte
  check (first = openByte)
  readItems item

theorem readItems_stop (item : Reader α) (rest : Bytes) :
    readItems item (stopByte :: rest) = some ([], rest) := by
  rw [readItems]
  exact if_pos rfl

theorem readItems_item {item : Reader α} {written : Bytes} {a : α} (h : item.Reads written a)
    (hopens : Opens written) (rest : Bytes) :
    readItems item (written ++ rest) = (readItems item rest).map fun (as, left) => (a :: as, left) := by
  obtain ⟨b, more, rfl, hb⟩ := hopens
  have hread := h rest
  rw [List.cons_append] at hread ⊢
  rw [readItems, if_neg hb, hread]
  exact if_pos (by simp only [List.length_cons, List.length_append]; omega)

theorem reads_items {item : Reader α} {write : α → Bytes} {as : List α}
    (h : ∀ a ∈ as, item.Reads (write a) a ∧ Opens (write a)) :
    Reader.Reads (readItems item) ((as.map write).flatten ++ [stopByte]) as := by
  induction as with
  | nil => exact readItems_stop item
  | cons a as ih =>
      intro rest
      obtain ⟨⟨hread, hopens⟩, hmore⟩ := List.forall_mem_cons.mp h
      show readItems item _ = _
      rw [List.map_cons, List.flatten_cons, List.append_assoc, List.append_assoc,
        readItems_item hread hopens]
      have hrest : readItems item ((as.map write).flatten ++ [stopByte] ++ rest) = some (as, rest) :=
        ih hmore rest
      rw [← List.append_assoc, hrest]
      rfl

theorem Encoder.Lawful.reads_array {e : Encoder} (he : e.Lawful) {item : Reader α}
    {write : α → Bytes} {as : List α} (h : ∀ a ∈ as, item.Reads (write a) a ∧ Opens (write a)) :
    (readArray item).Reads (e.array (as.map write)) as := by
  rw [Encoder.array, he.openArray_eq, he.stop_eq, List.append_assoc]
  exact (reads_byte openByte).bind ((reads_check rfl).bind (reads_items h))

end ThreeAddress.Wire
