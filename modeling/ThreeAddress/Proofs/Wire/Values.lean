import ThreeAddress.Proofs.Bitmap.Calls
import ThreeAddress.Proofs.Code.Listing
import ThreeAddress.Proofs.Lexing.Lexemes
import ThreeAddress.Proofs.Lowering.Names
import ThreeAddress.Proofs.Wire.Reading

/-!
# Values in the log

Tokens, code and bitmaps can be read back from a log that a lawful encoder wrote:
of a token its kind, its text and its offset, of code its lines, of a bitmap its
elements and whether it ever had any. What is read takes the value and nothing
after it, so values can stand in the log one after the other, and no two of
different content are written alike.

Texts are bytes here, valid UTF-8 or not.
-/

namespace ThreeAddress

/-! ## Names of kinds -/

namespace Kind

/-- What the names of kinds outside the language begin with. -/
def otherWord : String := "Kind("

theorem listed_name_inj :
    (listed.all fun k => listed.all fun k' => k.name != k'.name || k == k') = true := by
  decide

theorem not_otherWord_of_listed :
    (listed.all fun k => !otherWord.toList.isPrefixOf k.name.toList) = true := by
  decide

theorem mem_listed_or_other (k : Kind) : k ∈ listed ∨ ∃ c h, k = .other c h := by
  cases k with
  | other c h => exact .inr ⟨c, h, rfl⟩
  | _ => exact .inl (by decide)

theorem name_other_ne {k : Kind} (hk : k ∈ listed) (c : UInt8) (h : 27 ≤ c) :
    k.name ≠ (other c h).name := by
  intro hsame
  have hnot := List.all_eq_true.mp not_otherWord_of_listed k hk
  have hyes : otherWord.toList.isPrefixOf k.name.toList = true := by
    rw [hsame, name, List.isPrefixOf_iff_prefix, String.append_assoc, String.toList_append]
    exact List.prefix_append _ _
  rw [hyes] at hnot
  cases hnot

/-- Kinds go by different names. -/
theorem name_inj {k k' : Kind} (h : k.name = k'.name) : k = k' := by
  rcases mem_listed_or_other k with hk | ⟨c, hc, rfl⟩
  · rcases mem_listed_or_other k' with hk' | ⟨c', hc', rfl⟩
    · have hpair := List.all_eq_true.mp (List.all_eq_true.mp listed_name_inj k hk) k' hk'
      simpa [h] using hpair
    · exact absurd h (name_other_ne hk c' hc')
  · rcases mem_listed_or_other k' with hk' | ⟨c', hc', rfl⟩
    · exact absurd h.symm (name_other_ne hk' c hc)
    · have hnumber := (String.append_right_inj _).mp ((String.append_left_inj _).mp h)
      cases UInt8.toNat_inj.mp (number_inj hnumber)
      rfl

/-- The kind that goes by the name. -/
def ofName? (name : Bytes) : Option Kind :=
  ((List.range 256).map fun n => ofCode n.toUInt8).find? (Bytes.ofString ·.name == name)

theorem ofName?_name (k : Kind) : ofName? (.ofString k.name) = some k := by
  have hmem : k ∈ (List.range 256).map fun n => ofCode n.toUInt8 := by
    refine List.mem_map.mpr ⟨k.code.toNat, List.mem_range.mpr k.code.toNat_lt, ?_⟩
    rw [show k.code.toNat.toUInt8 = k.code from UInt8.ofNat_toNat, ofCode_code]
  cases hfind : ofName? (.ofString k.name) with
  | none => exact absurd (List.find?_eq_none.mp hfind k hmem) (by simp)
  | some k' =>
      have hbytes : Bytes.ofString k'.name = Bytes.ofString k.name := by
        simpa using List.find?_some hfind
      rw [name_inj (Bytes.ofString_inj hbytes)]

end Kind

/-! ## Content -/

/-- What the log holds of a bitmap: its elements in increasing order, unless
nothing was ever put into it. -/
def Bitmap.entry (s : Bitmap) : Option (List Nat) := if s.wasSet then some s.elements else none

/-- The lines of the code, each with its end, are what the listing is made of. -/
theorem Code.ofString_listing (c : Code) : Bytes.ofString c.listing =
    (c.map fun x => Bytes.ofString x.line).flatMap (· ++ [newline]) := by
  induction c with
  | nil => rfl
  | cons x rest ih =>
      rw [listing_cons, Bytes.ofString_append, Bytes.ofString_append, ih]
      rfl

namespace Bitmap

variable {ν σ : Type} [DecidableEq ν]

theorem wasSet_insert (s : Bitmap) (n : Nat) : (s.insert n).wasSet = true := by
  have hsize : (s.insert n).words.size ≠ 0 := by
    show (Array.modify _ _ _).size ≠ 0
    rw [Array.size_modify, Array.size_append, Array.size_replicate]
    omega
  simpa [wasSet] using hsize

theorem wasSet_sdiff (s x : Bitmap) : (s.sdiff x).wasSet = s.wasSet := by
  have hsize : (s.sdiff x).words.size = s.words.size := Array.size_mapIdx
  rw [wasSet, wasSet, Array.isEmpty, Array.isEmpty, hsize]

/-- Only putting a number into a bitmap makes a difference. -/
theorem wasSet_call (maps : ν → Bitmap) (c : Call ν σ) (v : ν) :
    ((call maps c).2 v).wasSet = true ↔ (maps v).wasSet = true ∨ ∃ n : Nat, c = .set v n := by
  cases c with
  | set w i =>
      rcases Int.lt_or_le i 0 with hi | hi
      · simp only [call, set_of_neg _ hi]
        refine ⟨.inl, ?_⟩
        rintro (h | ⟨n, hn⟩)
        · exact h
        · cases hn
          omega
      · obtain ⟨n, rfl⟩ := Int.eq_ofNat_of_zero_le hi
        simp only [call, set_natCast]
        by_cases hv : v = w
        · subst hv
          rw [Function.update_self, wasSet_insert]
          exact iff_of_true rfl (.inr ⟨n, rfl⟩)
        · rw [Function.update_of_ne hv]
          refine ⟨.inl, ?_⟩
          rintro (h | ⟨m, hm⟩)
          · exact h
          · cases hm
            exact absurd rfl hv
  | isSet w i => cases hget : (maps w).isSet i <;> simp [call, hget]
  | andNot w x =>
      simp only [call]
      by_cases hv : v = w
      · subst hv
        rw [Function.update_self, wasSet_sdiff]
        simp
      · rw [Function.update_of_ne hv]
        simp
  | first w => cases hfirst : (maps w).first? <;> simp [call, hfirst]
  | range w f init => simp [call]

theorem wasSet_run (maps : ν → Bitmap) (calls : List (Call ν σ)) (v : ν) :
    ((run maps calls).2 v).wasSet = true ↔
      (maps v).wasSet = true ∨ ∃ n : Nat, .set v n ∈ calls := by
  induction calls generalizing maps with
  | nil => simp [run]
  | cons c calls ih =>
      show ((run (call maps c).2 calls).2 v).wasSet = true ↔ _
      rw [ih, wasSet_call, or_assoc]
      refine or_congr_right ?_
      constructor
      · rintro (⟨n, rfl⟩ | ⟨n, hn⟩)
        · exact ⟨n, List.mem_cons_self⟩
        · exact ⟨n, List.mem_cons_of_mem _ hn⟩
      · rintro ⟨n, hn⟩
        rcases List.mem_cons.mp hn with hn | hn
        · exact .inl ⟨n, hn.symm⟩
        · exact .inr ⟨n, hn⟩

end Bitmap

/-! ## Readers of values -/

namespace Wire

variable {α β : Type}

/-- A string, which has to be the given one. -/
def readKey (key : String) : Reader Unit := do
  let name ← readString
  check (name = .ofString key)

def readKind : Reader Kind := do
  let name ← readString
  the (Kind.ofName? name)

def readToken : Reader TokenEntry := do
  let (major, pairs) ← readHead
  check (major = majorMap.toNat ∧ pairs = 3)
  readKey "kind"
  let kind ← readKind
  readKey "text"
  let text ← readString
  readKey "pos"
  let offset ← readInt
  return ⟨kind, text, offset⟩

def readLines : Reader (List Bytes) := readArray readString

def readBitmap : Reader (Option (List Nat)) := do
  let first ← readByte
  if first = nilByte then return none
  else
    check (first = openByte)
    some <$> (readItems readNat : Reader (List Nat))

theorem fits_name (k : Kind) : Fits (.ofString k.name) := by
  have hall : ((List.range 256).all fun n =>
      decide ((Bytes.ofString (Kind.ofCode n.toUInt8).name).length < 16)) = true := by
    decide +kernel
  have hk := List.all_eq_true.mp hall k.code.toNat (List.mem_range.mpr k.code.toNat_lt)
  rw [show k.code.toNat.toUInt8 = k.code from UInt8.ofNat_toNat, Kind.ofCode_code] at hk
  exact Nat.lt_trans (of_decide_eq_true hk) (by decide)

namespace Encoder.Lawful

variable {e : Encoder} (he : e.Lawful)

include he

theorem reads_key {key : String} (h : Fits (.ofString key)) : (readKey key).Reads (e.text key) () :=
  (he.reads_string h).finish (reads_check rfl)

theorem reads_kind (k : Kind) : readKind.Reads (e.text k.name) k :=
  (he.reads_string (fits_name k)).finish (reads_the k.ofName?_name)

theorem reads_entry {t : TokenEntry} (hpos : t.offset.natAbs ≤ 2 ^ 40) (htext : Fits t.text) :
    readToken.Reads (e.entry t) t := by
  have hoffset : t.offset.natAbs + 1 < 2 ^ 64 := by omega
  unfold entry
  simp only [List.append_assoc]
  refine ((he.map_head (by decide)).reads rfl).bind ((reads_check ⟨rfl, rfl⟩).bind ?_)
  refine (he.reads_key (by decide)).bind ((he.reads_kind t.kind).bind ?_)
  refine (he.reads_key (by decide)).bind ((he.reads_string htext).bind ?_)
  refine (he.reads_key (by decide)).bind ((he.reads_int hoffset).finish ?_)
  exact reads_pure t

theorem reads_lines {ls : List Bytes} (h : ∀ line ∈ ls, Fits line) :
    readLines.Reads (e.lines ls) ls :=
  he.reads_array fun line hline => ⟨he.reads_string (h line hline), he.opens_string (h line hline)⟩

theorem reads_code {c : Code} (h : ∀ x ∈ c, Fits (.ofString x.line)) :
    readLines.Reads (code c e) (c.map fun x => .ofString x.line) := by
  have hlines : c.lines.map .ofString = c.map fun x => Bytes.ofString x.line := List.map_map
  rw [code, hlines]
  exact he.reads_lines (List.forall_mem_map.mpr h)

theorem reads_bitmap {s : Bitmap} (h : ∀ n ∈ s.elements, n < 2 ^ 64) :
    readBitmap.Reads (bitmap s e) s.entry := by
  have hitems : Reader.Reads (readItems readNat)
      ((s.elements.map fun n : Nat => e.int n).flatten ++ [stopByte]) s.elements :=
    reads_items fun n hn => ⟨he.reads_nat (h n hn), he.opens_nat (h n hn)⟩
  unfold bitmap Bitmap.entry
  cases s.wasSet with
  | false =>
      rw [if_neg (by decide), if_neg (by decide), he.nil_eq]
      exact (reads_byte nilByte).finish (reads_pure none)
  | true =>
      rw [if_pos rfl, if_pos rfl, array, he.openArray_eq, he.stop_eq, List.append_assoc]
      exact (reads_byte openByte).bind ((reads_check rfl).bind (hitems.map some))

end Encoder.Lawful

/-! ## The log -/

/-- The values of a certain kind can be read back from the log: their content is
found, whatever comes after it, and values of different content are written in
different ways. -/
structure Recovers (read : Reader β) (write : α → Bytes) (content : α → β) (ok : α → Prop) :
    Prop where
  reads : ∀ a, ok a → ∀ rest, read.run (write a ++ rest) = some (content a, rest)
  differs : ∀ a a', ok a → ok a' → content a ≠ content a' → write a ≠ write a'

theorem recovers_of_reads {read : Reader β} {write : α → Bytes} {content : α → β} {ok : α → Prop}
    (h : ∀ a, ok a → read.Reads (write a) (content a)) : Recovers read write content ok := by
  refine ⟨h, ?_⟩
  intro a a' ha ha' hne hsame
  have hbytes : write a ++ [] = write a' ++ [] := by rw [hsame]
  exact hne ((h a ha).unique (h a' ha') hbytes).1

/-- Whatever stands after them in the log, tokens, code and bitmaps are read back
from what a lawful encoder wrote. The bounds are those of heads, which have room for
a number below 2 ^ 64 and no more. Of code, what is read back are the lines its
listing is made of. Of a bitmap, it is nothing if no number was ever put into it,
and otherwise its elements, each once, in increasing order. -/
theorem log_values_read_back {ν σ : Type} [DecidableEq ν] {e : Encoder} (he : e.Lawful) :
    Recovers readToken e.entry id (fun t => t.offset.natAbs ≤ 2 ^ 40 ∧ Fits t.text) ∧
    Recovers readToken (fun t : Token => token t e)
      (fun t => ⟨t.kind, .ofString t.text, t.loc.offset⟩)
      (fun t => t.loc.offset.natAbs ≤ 2 ^ 40 ∧ Fits (.ofString t.text)) ∧
    Recovers readLines e.lines id (fun ls => ∀ line ∈ ls, Fits line) ∧
    Recovers readLines (fun c : Code => code c e) (fun c => c.map fun x => .ofString x.line)
      (fun c => ∀ x ∈ c, Fits (.ofString x.line)) ∧
    (∀ c : Code, Bytes.ofString c.listing =
      (c.map fun x => Bytes.ofString x.line).flatMap (· ++ [newline])) ∧
    Recovers readBitmap (fun s : Bitmap => bitmap s e) Bitmap.entry
      (fun s => ∀ n ∈ s.elements, n < 2 ^ 64) ∧
    (∀ s : Bitmap, s.elements.Pairwise (· < ·) ∧ ∀ n, n ∈ s.elements ↔ s.contains n = true) ∧
    ∀ (calls : List (Bitmap.Call ν σ)) (v : ν),
      ((Bitmap.run (fun _ => .empty) calls).2 v).wasSet = true ↔ ∃ n : Nat, .set v n ∈ calls := by
  refine ⟨?entry, ?token, ?lines, ?code, Code.ofString_listing, ?bitmap, ?elements, ?history⟩
  case entry => exact recovers_of_reads fun t h => he.reads_entry h.1 h.2
  case token => exact recovers_of_reads fun t h => he.reads_entry h.1 h.2
  case lines => exact recovers_of_reads fun ls => he.reads_lines
  case code => exact recovers_of_reads fun c => he.reads_code
  case bitmap => exact recovers_of_reads fun s => he.reads_bitmap
  case elements => exact fun s => ⟨s.elements_increasing, fun n => Bitmap.mem_elements⟩
  case history =>
    intro calls v
    have hnever : Bitmap.empty.wasSet ≠ true := by decide
    rw [Bitmap.wasSet_run, or_iff_right hnever]

/-- A loop without a way out. -/
def spin : Code := [.mark ⟨0, "L0"⟩, .goto ⟨0, "L0"⟩]

/-- Three and seventy, which are in different words. -/
def threeAndSeventy : Bitmap := (Bitmap.empty.insert 70).insert 3

/-- A token whose text is no UTF-8, code and a bitmap, each before a byte that closes
arrays. -/
theorem compact_log_reads_back :
    Encoder.compact.Lawful ∧
    readToken.run (Encoder.compact.entry ⟨.other 200 (by decide), [0xff], -24⟩ ++ [stopByte]) =
      some (⟨.other 200 (by decide), [0xff], -24⟩, [stopByte]) ∧
    code spin =
      0x9f :: 0x63 :: Bytes.ofString "L0:" ++ 0x68 :: Bytes.ofString "goto L0;" ++ [0xff] ∧
    readLines.run (code spin ++ [stopByte]) =
      some ([.ofString "L0:", .ofString "goto L0;"], [stopByte]) ∧
    bitmap threeAndSeventy = [0x9f, 0x03, 0x18, 0x46, 0xff] ∧
    readBitmap.run (bitmap threeAndSeventy ++ [stopByte]) = some (some [3, 70], [stopByte]) := by
  obtain ⟨hentry, -, -, hcode, -, hbitmap, -, -⟩ :=
    log_values_read_back (ν := Unit) (σ := Unit) compact_lawful
  have helements : threeAndSeventy.elements = [3, 70] := by decide +kernel
  refine ⟨compact_lawful, ?entry, rfl, ?code, ?bytes, ?bitmap⟩
  case entry => exact hentry.reads _ ⟨by decide, by decide⟩ [stopByte]
  case code => exact hcode.reads spin (by decide) [stopByte]
  case bytes =>
    show Encoder.compact.array (threeAndSeventy.elements.map fun n : Nat => Encoder.compact.int n) = _
    rw [helements]
    rfl
  case bitmap =>
    have hread := hbitmap.reads threeAndSeventy (by rw [helements]; decide) [stopByte]
    rw [hread]
    show some (some threeAndSeventy.elements, [stopByte]) = _
    rw [helements]

end Wire

end ThreeAddress
