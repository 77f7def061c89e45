import ThreeAddress.Bitmap

/-!
# Bitmaps as sets

Membership after each operation, and the elements in order. A number stands for
bit `n % 64` of word `n / 64`, so a fact about membership is first one about a
word and then one about a bit of it.
-/

namespace ThreeAddress.Bitmap

/-! ## Words -/

theorem getD_append_zeros (words : Array UInt64) (count i : Nat) :
    (words ++ Array.replicate count 0).getD i 0 = words.getD i 0 := by
  simp only [Array.getD_eq_getD_getElem?, Array.getElem?_append, Array.getElem?_replicate]
  split
  · rfl
  · rename_i hi
    rw [Array.getElem?_eq_none (by omega)]
    split <;> rfl

theorem getD_modify {words : Array UInt64} {i : Nat} (hi : i < words.size) (f : UInt64 → UInt64)
    (j : Nat) :
    (words.modify i f).getD j 0 = if j = i then f (words.getD j 0) else words.getD j 0 := by
  simp only [Array.getD_eq_getD_getElem?, Array.getElem?_modify]
  by_cases hj : j = i
  · subst hj
    simp [hi]
  · rw [if_neg (Ne.symm hj), if_neg hj]

theorem word_insert (s : Bitmap) (n i : Nat) :
    (s.insert n).word i = if i = n / 64 then s.word i ||| bit (n % 64) else s.word i := by
  -- the array is grown first, so the word to change is there
  have hsize : n / 64 < (s.words ++ Array.replicate (n / 64 + 1 - s.words.size) 0).size := by
    rw [Array.size_append, Array.size_replicate]
    omega
  unfold insert word
  rw [getD_modify hsize, getD_append_zeros]

theorem word_sdiff (s x : Bitmap) (i : Nat) : (s.sdiff x).word i = s.word i &&& ~~~x.word i := by
  unfold sdiff word
  simp only [Array.getD_eq_getD_getElem?, Array.getElem?_mapIdx]
  cases s.words[i]? with
  | none => simp
  | some w => rfl

theorem eq_zero_of_testBit {w : UInt64} (h : ∀ j < 64, w.toNat.testBit j = false) : w = 0 := by
  apply UInt64.toNat_inj.mp
  apply Nat.eq_of_testBit_eq
  intro j
  by_cases hj : j < 64
  · rw [h j hj]
    simp
  · have hpow : 2 ^ 64 ≤ 2 ^ j := Nat.pow_le_pow_right (by decide) (by omega)
    rw [Nat.testBit_lt_two_pow (Nat.lt_of_lt_of_le w.toNat_lt hpow)]
    simp

/-! ## Membership -/

theorem contains_empty (n : Nat) : empty.contains n = false := by
  simp [contains, word, empty]

theorem contains_insert (s : Bitmap) (n m : Nat) :
    (s.insert n).contains m = (s.contains m || decide (m = n)) := by
  unfold contains
  rw [word_insert]
  split
  · rename_i hword
    rw [UInt64.toNat_or, Nat.testBit_or, testBit_bit (Nat.mod_lt _ (by decide))]
    congr 1
    rw [decide_eq_decide]
    -- in the same word, equal bits are equal numbers
    omega
  · rename_i hword
    have hne : m ≠ n := fun h => hword (by rw [h])
    simp [hne]

theorem contains_sdiff (s x : Bitmap) (n : Nat) :
    (s.sdiff x).contains n = (s.contains n && !x.contains n) := by
  unfold contains
  rw [word_sdiff, testBit_and_not]

theorem first?_eq_map (s : Bitmap) :
    s.first? = (s.words.findIdx? (· ≠ 0)).map fun i => 64 * i + lowest (s.word i) := by
  unfold first?
  cases s.words.findIdx? (· ≠ 0) <;> rfl

/-- A bitmap has no first element if all its words are zero. -/
theorem first?_eq_none_iff {s : Bitmap} : s.first? = none ↔ ∀ i, s.word i = 0 := by
  rw [first?_eq_map, Option.map_eq_none_iff, Array.findIdx?_eq_none_iff]
  unfold word
  simp only [Array.getD_eq_getD_getElem?, decide_not, Bool.not_eq_false', decide_eq_true_eq]
  constructor
  · intro h i
    cases hword : s.words[i]? with
    | none => rfl
    | some w => exact h w (Array.mem_of_getElem? hword)
  · intro h w hw
    obtain ⟨i, hi, rfl⟩ := Array.mem_iff_getElem.mp hw
    simpa [hi] using h i

theorem first?_eq_none {s : Bitmap} (h : ∀ n, s.contains n = false) : s.first? = none := by
  rw [first?_eq_none_iff]
  intro i
  refine eq_zero_of_testBit fun j hj => ?_
  have hbit := h (64 * i + j)
  unfold contains at hbit
  rwa [show (64 * i + j) / 64 = i by omega, show (64 * i + j) % 64 = j by omega] at hbit

theorem contains_of_first?_eq_none {s : Bitmap} (h : s.first? = none) (n : Nat) :
    s.contains n = false := by
  rw [contains, first?_eq_none_iff.mp h]
  exact Nat.zero_testBit _

/-! ## Elements in order -/

theorem lt_of_testBit {w : UInt64} {j : Nat} (h : w.toNat.testBit j = true) : j < 64 := by
  refine Nat.lt_of_not_le fun hj => ?_
  rw [show w.toNat.testBit j = false from BitVec.getLsbD_of_ge w.toBitVec j hj] at h
  cases h

theorem mem_bitsOf {w : UInt64} {j : Nat} : j ∈ bitsOf w ↔ w.toNat.testBit j = true := by
  fun_induction bitsOf w with
  | case1 => simp
  | case2 w hw ih =>
      rw [List.mem_cons, ih, testBit_clearLowest hw]
      by_cases hj : j = lowest w
      · subst hj
        simp [testBit_lowest hw]
      · simp [hj]

theorem bitsOf_increasing (w : UInt64) : (bitsOf w).Pairwise (· < ·) := by
  fun_induction bitsOf w with
  | case1 => exact .nil
  | case2 w hw ih =>
      refine .cons (fun j hj => ?_) ih
      -- what is left is set in the word, and is neither its lowest bit nor below it
      rw [mem_bitsOf, testBit_clearLowest hw] at hj
      have hne : j ≠ lowest w := by
        rintro rfl
        simp at hj
      have hle : ¬ j < lowest w := by
        intro hlt
        simp [testBit_of_lt_lowest hlt] at hj
      omega

theorem word_of_getElem? {s : Bitmap} {i : Nat} {w : UInt64} (h : s.words[i]? = some w) :
    s.word i = w := by
  rw [word, Array.getD_eq_getD_getElem?, h]
  rfl

theorem contains_add {s : Bitmap} {i j : Nat} (hj : j < 64) :
    s.contains (64 * i + j) = (s.word i).toNat.testBit j := by
  rw [contains, show (64 * i + j) / 64 = i by omega, show (64 * i + j) % 64 = j by omega]

theorem mem_elements {s : Bitmap} {n : Nat} : n ∈ s.elements ↔ s.contains n = true := by
  unfold elements
  simp only [List.mem_flatMap, List.mem_map, Prod.exists, List.mk_mem_zipIdx_iff_getElem?,
    Array.getElem?_toList, mem_bitsOf]
  constructor
  · rintro ⟨w, i, hw, j, hj, rfl⟩
    rwa [contains_add (lt_of_testBit hj), word_of_getElem? hw]
  · intro h
    unfold contains at h
    cases hw : s.words[n / 64]? with
    | none => simp [word, hw] at h
    | some w =>
        rw [word_of_getElem? hw] at h
        exact ⟨w, n / 64, hw, n % 64, h, Nat.div_add_mod n 64⟩

theorem elements_increasing (s : Bitmap) : s.elements.Pairwise (· < ·) := by
  unfold elements
  refine List.pairwise_flatMap.mpr ⟨fun entry _ => ?_, ?_⟩
  · exact List.pairwise_map.mpr ((bitsOf_increasing entry.1).imp fun h => by omega)
  · -- all elements of a word come before all of a later one
    have hindex : s.words.toList.zipIdx.Pairwise (fun a b => a.2 < b.2) := by
      rw [← List.pairwise_map (f := Prod.snd) (R := (· < ·)), List.zipIdx_map_snd]
      exact List.pairwise_lt_range'
    refine hindex.imp ?_
    rintro ⟨v, i⟩ ⟨w, k⟩ hik n hn m hm
    obtain ⟨j, hj, rfl⟩ := List.mem_map.mp hn
    obtain ⟨l, hl, rfl⟩ := List.mem_map.mp hm
    have hlt := lt_of_testBit (mem_bitsOf.mp hj)
    dsimp only at hik ⊢
    omega

/-- The first element is an element, and no other is smaller. -/
theorem least_of_first? {s : Bitmap} {n : Nat} (h : s.first? = some n) :
    s.contains n = true ∧ ∀ m, s.contains m = true → n ≤ m := by
  rw [first?_eq_map] at h
  obtain ⟨i, hfind, rfl⟩ := Option.map_eq_some_iff.mp h
  obtain ⟨hi, hne, hbefore⟩ := Array.findIdx?_eq_some_iff_getElem.mp hfind
  have hword : s.word i ≠ 0 := by
    rw [word_of_getElem? (Array.getElem?_eq_getElem hi)]
    simpa using hne
  have hlow := lowest_lt hword
  constructor
  · rw [contains_add hlow]
    exact testBit_lowest hword
  · intro m hm
    unfold contains at hm
    -- earlier words are zero, and so are the bits below the lowest one of the word itself
    have hlate : ¬ m / 64 < i := by
      intro hlt
      have hzero := hbefore (m / 64) hlt
      rw [word_of_getElem? (Array.getElem?_eq_getElem (Nat.lt_trans hlt hi))] at hm
      simp_all
    have hhigh : m / 64 = i → lowest (s.word i) ≤ m % 64 := by
      rintro rfl
      refine Nat.le_of_not_lt fun hlt => ?_
      rw [testBit_of_lt_lowest hlt] at hm
      cases hm
    omega

/-! ## Integers as elements -/

/-- The bitmap has the natural numbers among the integers for elements. -/
def Holds (s : Bitmap) (ids : List Int) : Prop := ∀ n : Nat, s.contains n = true ↔ (n : Int) ∈ ids

theorem holds_empty : empty.Holds [] := by
  intro n
  simp [contains_empty]

theorem element_of_nonneg {i : Int} (hi : 0 ≤ i) : element i = .ok i.toNat := by
  rw [element, if_neg (by omega)]

theorem element_of_neg {i : Int} (hi : i < 0) : element i = .error ⟨i⟩ := by
  rw [element, if_pos hi]

theorem set_natCast (s : Bitmap) (n : Nat) : s.set n = .ok (s.insert n) := by
  rw [set, element_of_nonneg (Int.natCast_nonneg n)]
  rfl

theorem set_of_neg (s : Bitmap) {i : Int} (hi : i < 0) : s.set i = .error ⟨i⟩ := by
  rw [set, element_of_neg hi]
  rfl

theorem nonneg_of_isSet {s : Bitmap} {i : Int} {b : Bool} (h : s.isSet i = .ok b) : 0 ≤ i := by
  unfold isSet element at h
  split at h
  · cases h
  · omega

theorem nonneg_of_set {s s' : Bitmap} {i : Int} (h : s.set i = .ok s') : 0 ≤ i := by
  unfold set element at h
  split at h
  · cases h
  · omega

theorem Holds.isSet {s : Bitmap} {ids : List Int} (h : s.Holds ids) {i : Int} (hi : 0 ≤ i) :
    s.isSet i = .ok (decide (i ∈ ids)) := by
  rw [Bitmap.isSet, element_of_nonneg hi]
  show Except.ok (s.contains i.toNat) = _
  have hmem := h i.toNat
  rw [Int.toNat_of_nonneg hi] at hmem
  rw [Bool.eq_iff_iff.mpr (hmem.trans decide_eq_true_iff.symm)]

theorem Holds.set {s : Bitmap} {ids : List Int} (h : s.Holds ids) {i : Int} (hi : 0 ≤ i) :
    s.set i = .ok (s.insert i.toNat) ∧ (s.insert i.toNat).Holds (ids ++ [i]) := by
  refine ⟨by rw [Bitmap.set, element_of_nonneg hi]; rfl, fun n => ?_⟩
  rw [contains_insert, Bool.or_eq_true, decide_eq_true_eq, h n, List.mem_append,
    List.mem_singleton]
  constructor
  · rintro (hmem | hn)
    · exact .inl hmem
    · exact .inr (by omega)
  · rintro (hmem | hn)
    · exact .inl hmem
    · exact .inr (by omega)

theorem first?_sdiff_eq_none {s x : Bitmap} {ids among : List Int} (hs : s.Holds ids)
    (hx : x.Holds among) (hsub : ∀ i ∈ ids, i ∈ among) : (s.sdiff x).first? = none := by
  apply first?_eq_none
  intro n
  rw [contains_sdiff, Bool.and_eq_false_iff, Bool.not_eq_false']
  by_cases hn : s.contains n = true
  · exact .inr ((hx n).mpr (hsub n ((hs n).mp hn)))
  · exact .inl (by simpa using hn)

theorem mem_of_first?_sdiff {s x : Bitmap} {ids among : List Int} (hs : s.Holds ids)
    (hx : x.Holds among) (h : (s.sdiff x).first? = none) {i : Int} (hi : i ∈ ids)
    (hnonneg : 0 ≤ i) : i ∈ among := by
  obtain ⟨n, rfl⟩ := Int.eq_ofNat_of_zero_le hnonneg
  have hnone := contains_of_first?_eq_none h n
  rw [contains_sdiff, (hs n).mpr hi] at hnone
  exact (hx n).mp (by simpa using hnone)

end ThreeAddress.Bitmap
