import ThreeAddress.Code.Lowering

/-!
# Names made by lowering

Every name lowering makes is a word followed by a number. Two such names are
equal only if words and numbers are, as long as the words hold no digits
(`word_number_inj`); and a stem that passed the check makes no name that
starts with the word of a label (`LowerOptions.stem_number_ne`).

`Scope.MakesTemp` and `Scope.MakesLabel` say which temporaries and labels are
handed out between two states of the counters. What is handed out later
differs, in number and in name, from what was handed out before.
-/

namespace ThreeAddress

/-! ## Words and numbers -/

theorem isDigit_of_mem_number {n : Nat} {ch : Char} (h : ch ∈ (toString n).toList) :
    ch.isDigit = true := by
  rw [Nat.toString_eq_repr, Nat.toList_repr] at h
  exact Nat.isDigit_of_mem_toDigits (by decide) (by decide) h

theorem number_inj {m n : Nat} (h : toString m = toString n) : m = n := by
  have read := congrArg (fun text : String => Nat.ofDigitChars 10 text.toList 0) h
  simpa [Nat.ofDigitChars_ten_toDigits] using read

theorem append_number_inj {word : String} {m n : Nat}
    (h : word ++ toString m = word ++ toString n) : m = n :=
  number_inj ((String.append_right_inj word).mp h)

/-- A word without digits. -/
def NoDigits (word : String) : Prop := ∀ ch ∈ word.toList, ch.isDigit = false

/-- A stem that makes the same name as a word without digits is that word,
maybe with digits after it. -/
theorem stem_eq_word_digits {stem word : String} (hw : NoDigits word) {m n : Nat}
    (h : stem ++ toString m = word ++ toString n) :
    ∃ digits, (∀ ch ∈ digits, ch.isDigit = true) ∧ stem.toList = word.toList ++ digits := by
  have chars := congrArg String.toList h
  rw [String.toList_append, String.toList_append, List.append_eq_append_iff] at chars
  rcases chars with ⟨as, hword, hm⟩ | ⟨bs, hstem, hn⟩
  · -- What the word has more than the stem is part of a number, so it is nothing.
    have none : as = [] := by
      refine List.eq_nil_iff_forall_not_mem.mpr fun ch hc => ?_
      have digit : ch.isDigit = true :=
        isDigit_of_mem_number (n := m) (by rw [hm]; exact List.mem_append_left _ hc)
      have letter := hw ch (by rw [hword]; exact List.mem_append_right _ hc)
      rw [digit] at letter
      cases letter
    exact ⟨[], by simp, by rw [hword, none]; simp⟩
  · refine ⟨bs, fun ch hc => ?_, hstem⟩
    exact isDigit_of_mem_number (n := n) (by rw [hn]; exact List.mem_append_left _ hc)

/-- Words without digits and the numbers after them can be told apart. -/
theorem word_number_inj {u v : String} (hu : NoDigits u) (hv : NoDigits v) {m n : Nat}
    (h : u ++ toString m = v ++ toString n) : u = v ∧ m = n := by
  obtain ⟨digits, hd, huv⟩ := stem_eq_word_digits hv h
  have none : digits = [] := by
    refine List.eq_nil_iff_forall_not_mem.mpr fun ch hc => ?_
    have letter := hu ch (by rw [huv]; exact List.mem_append_right _ hc)
    rw [hd ch hc] at letter
    cases letter
  obtain rfl : u = v := String.toList_inj.mp (by rw [huv, none, List.append_nil])
  exact ⟨rfl, append_number_inj h⟩

/-! ## Words of labels -/

/-- What stays the same while the program is lowered. -/
def LowerOptions.scope (o : LowerOptions) (p : Program) : Lowering.Scope :=
  ⟨o.tempStem, o.namedLabels, p.names⟩

theorem noDigits_of_all {word : String} (h : word.toList.all (!·.isDigit) = true) :
    NoDigits word := by
  intro ch hch
  simpa using List.all_eq_true.mp h ch hch

theorem noDigits_word (purpose : Purpose) : NoDigits purpose.word := by
  cases purpose <;> exact noDigits_of_all rfl

theorem noDigits_plainLabel : NoDigits plainLabel := noDigits_of_all rfl

theorem word_inj {p q : Purpose} (h : p.word = q.word) : p = q := by
  cases p <;> cases q <;> simp_all [Purpose.word]

theorem word_mem_labelWords (purpose : Purpose) : purpose.word ∈ labelWords true := by
  cases purpose <;> simp [labelWords]

theorem extendsByDigits_iff {word stem : String} : extendsByDigits word stem = true ↔
    ∃ digits : List Char, (∀ ch ∈ digits, ch.isDigit = true) ∧
      stem.toList = word.toList ++ digits := by
  have hlen : word.toList.length = word.length := String.length_toList
  simp only [extendsByDigits, Bool.and_eq_true, List.isPrefixOf_iff_prefix, List.all_eq_true]
  constructor
  · rintro ⟨⟨digits, hstem⟩, hdigits⟩
    rw [← hstem, ← hlen, List.drop_left] at hdigits
    exact ⟨digits, hdigits, hstem.symm⟩
  · rintro ⟨digits, hdigits, hstem⟩
    refine ⟨⟨digits, hstem.symm⟩, ?_⟩
    rwa [hstem, ← hlen, List.drop_left]

/-- The stem is a word that labels start with, maybe with digits after it. -/
def LowerOptions.Collides (o : LowerOptions) : Prop :=
  ∃ word ∈ labelWords o.namedLabels, ∃ digits : List Char,
    (∀ ch ∈ digits, ch.isDigit = true) ∧ o.tempStem.toList = word.toList ++ digits

theorem LowerOptions.check_of_collides {o : LowerOptions} (hstem : o.tempStem ≠ "")
    (h : o.Collides) : ∃ word, o.check = .error (.tempStemCollides o.tempStem word) := by
  obtain ⟨word, hmem, hdigits⟩ := h
  rw [LowerOptions.check, if_neg hstem]
  cases hfind : (labelWords o.namedLabels).find? (extendsByDigits · o.tempStem) with
  | none => exact absurd (extendsByDigits_iff.mpr hdigits) (List.find?_eq_none.mp hfind word hmem)
  | some word => exact ⟨word, rfl⟩

theorem LowerOptions.check_eq_ok_iff {o : LowerOptions} :
    o.check = .ok () ↔ o.tempStem ≠ "" ∧ ¬ o.Collides := by
  constructor
  · intro h
    have hstem : o.tempStem ≠ "" := by
      intro hempty
      rw [LowerOptions.check, if_pos hempty] at h
      cases h
    refine ⟨hstem, fun hcollides => ?_⟩
    obtain ⟨word, herror⟩ := check_of_collides hstem hcollides
    rw [herror] at h
    cases h
  · rintro ⟨hstem, hfree⟩
    rw [LowerOptions.check, if_neg hstem]
    cases hfind : (labelWords o.namedLabels).find? (extendsByDigits · o.tempStem) with
    | none => rfl
    | some word =>
        have hextends : extendsByDigits word o.tempStem = true := by
          simpa using List.find?_some hfind
        have hmem := List.mem_of_find?_eq_some hfind
        exact absurd ⟨word, hmem, extendsByDigits_iff.mp hextends⟩ hfree

/-- A stem that passed the check makes no name of a label. -/
theorem LowerOptions.stem_number_ne {o : LowerOptions} (h : o.check = .ok ()) {word : String}
    (hmem : word ∈ labelWords o.namedLabels) (hw : NoDigits word) (m n : Nat) :
    o.tempStem ++ toString m ≠ word ++ toString n := fun same =>
  (check_eq_ok_iff.mp h).2 ⟨word, hmem, stem_eq_word_digits hw same⟩

namespace Lowering

/-! ## Counters only grow -/

/-- No counter of the first is ahead of the second. -/
structure Counters.Below (c c' : Counters) : Prop where
  temps : c.temps ≤ c'.temps
  serial : c.serial ≤ c'.serial
  labels : c.labels ≤ c'.labels
  count : ∀ purpose, c.count purpose ≤ c'.count purpose

theorem Counters.Below.refl (c : Counters) : c.Below c :=
  ⟨Nat.le_refl _, Nat.le_refl _, Nat.le_refl _, fun _ => Nat.le_refl _⟩

theorem Counters.Below.trans {c c₁ c₂ : Counters} (h : c.Below c₁) (h' : c₁.Below c₂) :
    c.Below c₂ :=
  ⟨Nat.le_trans h.temps h'.temps, Nat.le_trans h.serial h'.serial,
    Nat.le_trans h.labels h'.labels, fun p => Nat.le_trans (h.count p) (h'.count p)⟩

theorem firstFree_ge (stem : String) (taken : List String) (n : Nat) :
    n ≤ firstFree stem taken n := by
  fun_induction firstFree stem taken n with
  | case1 taken n hmem ih => omega
  | case2 taken n hmem => exact Nat.le_refl n

/-- The number found makes a name that is not taken. -/
theorem firstFree_not_mem (stem : String) (taken : List String) (n : Nat) :
    stem ++ toString (firstFree stem taken n) ∉ taken := by
  fun_induction firstFree stem taken n with
  | case1 taken n hmem ih =>
      -- The name that was erased belongs to a smaller number than the one found.
      intro h
      refine ih ((List.mem_erase_of_ne fun same => ?_).mpr h)
      have := firstFree_ge stem (taken.erase (stem ++ toString n)) (n + 1)
      have := append_number_inj same
      omega
  | case2 taken n hmem => exact hmem

theorem below_temp (s : Scope) (c : Counters) : c.Below (s.temp c).2 := by
  have := firstFree_ge s.stem s.taken c.serial
  refine ⟨Nat.le_succ _, by simp only [Scope.temp]; omega, Nat.le_refl _, fun p => ?_⟩
  cases p <;> exact Nat.le_refl _

@[simp] theorem labels_withLabel (c : Counters) (purpose : Purpose) :
    (c.withLabel purpose).labels = c.labels + 1 := by
  cases purpose <;> rfl

@[simp] theorem temps_withLabel (c : Counters) (purpose : Purpose) :
    (c.withLabel purpose).temps = c.temps := by
  cases purpose <;> rfl

@[simp] theorem serial_withLabel (c : Counters) (purpose : Purpose) :
    (c.withLabel purpose).serial = c.serial := by
  cases purpose <;> rfl

@[simp] theorem count_withLabel (c : Counters) (p q : Purpose) :
    (c.withLabel p).count q = c.count q + if q = p then 1 else 0 := by
  cases p <;> cases q <;> rfl

theorem below_withLabel (c : Counters) (purpose : Purpose) : c.Below (c.withLabel purpose) := by
  refine ⟨?_, ?_, ?_, fun p => ?_⟩ <;> simp

/-! ## What is handed out between two states of the counters -/

namespace Scope

/-- The temporary `t` may be handed out on the way from `c` to `c'`. -/
structure MakesTemp (s : Scope) (c c' : Counters) (t : Temp) : Prop where
  id : ∃ k : Nat, c.temps ≤ k ∧ k < c'.temps ∧ t.id = k
  name : ∃ n : Nat, c.serial ≤ n ∧ n < c'.serial ∧ t.name = s.stem ++ toString n
  free : t.name ∉ s.taken

/-- The label `l` may be handed out on the way from `c` to `c'`. -/
structure MakesLabel (s : Scope) (c c' : Counters) (l : Label) : Prop where
  id : ∃ k : Nat, c.labels ≤ k ∧ k < c'.labels ∧ l.id = k
  plain : s.namedLabels = false →
    ∃ k : Nat, c.labels ≤ k ∧ k < c'.labels ∧ l.name = plainLabel ++ toString k
  named : s.namedLabels = true →
    ∃ purpose, ∃ n : Nat, c.count purpose < n ∧ n ≤ c'.count purpose ∧
      l.name = purpose.word ++ toString n

theorem makesTemp_temp (s : Scope) (c : Counters) : s.MakesTemp c (s.temp c).2 (s.temp c).1 where
  id := ⟨c.temps, Nat.le_refl _, Nat.lt_succ_self _, rfl⟩
  name := ⟨_, firstFree_ge s.stem s.taken c.serial, Nat.lt_succ_self _, rfl⟩
  free := firstFree_not_mem s.stem s.taken c.serial

theorem makesLabel_label (s : Scope) (purpose : Purpose) (c : Counters) :
    s.MakesLabel c (c.withLabel purpose) (s.label purpose c).1 where
  id := ⟨c.labels, Nat.le_refl _, by simp, rfl⟩
  plain h := ⟨c.labels, Nat.le_refl _, by simp, by simp [label, h]⟩
  named h := ⟨purpose, c.count purpose + 1, Nat.lt_succ_self _, by simp, by simp [label, h]⟩

variable {s : Scope} {c₀ c c' c₁ : Counters} {t t' : Temp} {l l' : Label}

theorem MakesTemp.widen (h : s.MakesTemp c c' t) (h₀ : c₀.Below c) (h₁ : c'.Below c₁) :
    s.MakesTemp c₀ c₁ t := by
  obtain ⟨⟨k, hk, hk', hid⟩, ⟨n, hn, hn', hname⟩, free⟩ := h
  have := h₀.temps
  have := h₀.serial
  have := h₁.temps
  have := h₁.serial
  exact ⟨⟨k, by omega, by omega, hid⟩, ⟨n, by omega, by omega, hname⟩, free⟩

theorem MakesLabel.widen (h : s.MakesLabel c c' l) (h₀ : c₀.Below c) (h₁ : c'.Below c₁) :
    s.MakesLabel c₀ c₁ l := by
  obtain ⟨⟨k, hk, hk', hid⟩, plain, named⟩ := h
  have := h₀.labels
  have := h₁.labels
  refine ⟨⟨k, by omega, by omega, hid⟩, fun hs => ?_, fun hs => ?_⟩
  · obtain ⟨k, hk, hk', hname⟩ := plain hs
    exact ⟨k, by omega, by omega, hname⟩
  · obtain ⟨p, n, hn, hn', hname⟩ := named hs
    have := h₀.count p
    have := h₁.count p
    exact ⟨p, n, by omega, by omega, hname⟩

/-- Temporaries handed out one after the other differ. -/
theorem MakesTemp.ne (h : s.MakesTemp c₀ c t) (h' : s.MakesTemp c c₁ t') :
    t.id ≠ t'.id ∧ t.name ≠ t'.name := by
  obtain ⟨⟨k, _, hk, hid⟩, ⟨n, _, hn, hname⟩, _⟩ := h
  obtain ⟨⟨k', hk', _, hid'⟩, ⟨n', hn', _, hname'⟩, _⟩ := h'
  refine ⟨by omega, fun same => ?_⟩
  rw [hname, hname'] at same
  have := append_number_inj same
  omega

/-- Labels handed out one after the other differ. -/
theorem MakesLabel.ne (h : s.MakesLabel c₀ c l) (h' : s.MakesLabel c c₁ l') :
    l.id ≠ l'.id ∧ l.name ≠ l'.name := by
  obtain ⟨⟨k, _, hk, hid⟩, plain, named⟩ := h
  obtain ⟨⟨k', hk', _, hid'⟩, plain', named'⟩ := h'
  refine ⟨by omega, fun same => ?_⟩
  cases hs : s.namedLabels with
  | false =>
      obtain ⟨n, _, hn, hname⟩ := plain hs
      obtain ⟨n', hn', _, hname'⟩ := plain' hs
      rw [hname, hname'] at same
      have := append_number_inj same
      omega
  | true =>
      obtain ⟨p, n, _, hn, hname⟩ := named hs
      obtain ⟨q, n', hn', _, hname'⟩ := named' hs
      rw [hname, hname'] at same
      obtain ⟨hpq, hnn⟩ := word_number_inj (noDigits_word p) (noDigits_word q) same
      cases word_inj hpq
      omega

/-- No temporary is named like a label. -/
theorem MakesTemp.ne_label {o : LowerOptions} {p : Program} (hok : o.check = .ok ())
    (h : (o.scope p).MakesTemp c₀ c t) (h' : (o.scope p).MakesLabel c' c₁ l) :
    t.name ≠ l.name := by
  obtain ⟨n, _, _, hname⟩ := h.name
  cases hs : o.namedLabels with
  | false =>
      obtain ⟨k, _, _, hlabel⟩ := h'.plain hs
      rw [hname, hlabel]
      exact o.stem_number_ne hok (by simp [hs, labelWords]) noDigits_plainLabel n k
  | true =>
      obtain ⟨p, k, _, _, hlabel⟩ := h'.named hs
      rw [hname, hlabel]
      exact o.stem_number_ne hok (by rw [hs]; exact word_mem_labelWords p) (noDigits_word p) n k

end Scope

end Lowering

end ThreeAddress
