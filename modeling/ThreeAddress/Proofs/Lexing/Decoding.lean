import ThreeAddress.Proofs.Lexing.Lexemes
import ThreeAddress.Text.Utf8

/-!
# The character at the front of a text

`Utf8.front` finds the character whose encoding the text begins with
(`Utf8.decode?_eq_some_iff`), and takes a single byte where there is none. The
bytes of a character past ASCII are all past ASCII, so no blank is ever part of
one.
-/

namespace ThreeAddress.Utf8

/-- The text begins with the encoding of `c`, which takes `width` bytes; or it
begins with no encoding of a character, and its first byte stands for the
replacement character. -/
def FrontIs (bs : Bytes) (c : Char) (width : Nat) : Prop :=
  (String.utf8EncodeChar c <+: bs ∧ width = c.utf8Size) ∨
    ((∀ d, ¬ String.utf8EncodeChar d <+: bs) ∧ c = replacement ∧ width = 1)

theorem prefix_of_decode? {bs : Bytes} {c : Char} (h : decode? bs = some c) :
    String.utf8EncodeChar c <+: bs := by
  obtain ⟨more, hmore⟩ := ByteArray.exists_of_utf8DecodeChar?_eq_some h
  -- four bytes at most are looked at, and they are the first ones of the text
  have hlist := congrArg (fun a => a.data.toList) hmore
  have hfour : bs.take 4 = String.utf8EncodeChar c ++ more.data.toList := by simpa using hlist
  exact (List.prefix_append _ _).trans (hfour ▸ List.take_prefix 4 bs)

theorem decode?_of_prefix {bs : Bytes} {c : Char} (h : String.utf8EncodeChar c <+: bs) :
    decode? bs = some c := by
  obtain ⟨rest, rfl⟩ := h
  have hlen : (String.utf8EncodeChar c).length ≤ 4 := by
    rw [String.length_utf8EncodeChar]
    exact c.utf8Size_le_four
  have hbytes : ByteArray.mk ((String.utf8EncodeChar c ++ rest).take 4).toArray =
      (String.utf8EncodeChar c).toByteArray ++
        (rest.take (4 - (String.utf8EncodeChar c).length)).toByteArray := by
    apply ByteArray.ext
    apply Array.toList_inj.mp
    simp [List.take_append, List.take_of_length_le hlen]
  rw [decode?, hbytes]
  exact ByteArray.utf8DecodeChar?_utf8EncodeChar_append

/-- Decoding finds the character that the text begins with. -/
theorem decode?_eq_some_iff {bs : Bytes} {c : Char} :
    decode? bs = some c ↔ String.utf8EncodeChar c <+: bs :=
  ⟨prefix_of_decode?, decode?_of_prefix⟩

theorem frontIs_front (bs : Bytes) : FrontIs bs (front bs).1 (front bs).2 := by
  unfold front
  cases h : decode? bs with
  | some c => exact .inl ⟨decode?_eq_some_iff.mp h, rfl⟩
  | none =>
      refine .inr ⟨fun d hd => ?_, rfl, rfl⟩
      rw [decode?_eq_some_iff.mpr hd] at h
      cases h

/-! ## Bytes of characters -/

theorem le_toNat_ofNat {n : Nat} (hlow : 128 ≤ n) (hhigh : n < 256) :
    128 ≤ (UInt8.ofNat n).toNat := by
  rw [UInt8.toNat_ofNat_of_lt' hhigh]
  exact hlow

theorem le_of_mem_utf8EncodeChar {c : Char} (hc : 128 ≤ c.toNat) {b : UInt8}
    (hb : b ∈ String.utf8EncodeChar c) : 128 ≤ b.toNat := by
  have hv : 128 ≤ c.val.toNat := hc
  unfold String.utf8EncodeChar at hb
  simp only at hb
  -- one case for each width; the bytes of the wide ones carry a high mark
  split at hb
  · omega
  · split at hb
    · simp only [List.mem_cons, List.not_mem_nil, or_false] at hb
      rcases hb with rfl | rfl <;> exact le_toNat_ofNat (by omega) (by omega)
    · split at hb
      · simp only [List.mem_cons, List.not_mem_nil, or_false] at hb
        rcases hb with rfl | rfl | rfl <;> exact le_toNat_ofNat (by omega) (by omega)
      · simp only [List.mem_cons, List.not_mem_nil, or_false] at hb
        rcases hb with rfl | rfl | rfl | rfl <;> exact le_toNat_ofNat (by omega) (by omega)

/-- No byte of the character at the front of a text is blank, if the first one is
not. -/
theorem isBlank_of_frontIs {b : UInt8} {bs : Bytes} {c : Char} {width : Nat}
    (h : FrontIs (b :: bs) c width) (hb : isBlank b = false) :
    ∀ x ∈ (b :: bs).take width, isBlank x = false := by
  intro x hx
  rcases h with ⟨⟨rest, hrest⟩, rfl⟩ | ⟨-, -, rfl⟩
  · rw [← hrest, ← String.length_utf8EncodeChar, List.take_left] at hx
    by_cases hc : 128 ≤ c.toNat
    · exact isBlank_eq_false (p := (128 ≤ ·.toNat)) (by decide)
        (decide_eq_true (le_of_mem_utf8EncodeChar hc hx))
    · rw [utf8EncodeChar_of_lt (by omega)] at hx hrest
      cases hrest
      rw [List.mem_singleton.mp hx]
      exact hb
  · rw [List.take_succ_cons, List.take_zero, List.mem_singleton] at hx
    rw [hx]
    exact hb

theorem FrontIs.width_pos {bs : Bytes} {c : Char} {width : Nat} (h : FrontIs bs c width) :
    0 < width := by
  rcases h with ⟨-, rfl⟩ | ⟨-, -, rfl⟩
  · exact c.utf8Size_pos
  · exact Nat.one_pos

theorem FrontIs.width_le {b : UInt8} {bs : Bytes} {c : Char} {width : Nat}
    (h : FrontIs (b :: bs) c width) : width ≤ (b :: bs).length := by
  rcases h with ⟨hfront, rfl⟩ | ⟨-, -, rfl⟩
  · rw [← String.length_utf8EncodeChar]
    exact hfront.length_le
  · simp

end ThreeAddress.Utf8
