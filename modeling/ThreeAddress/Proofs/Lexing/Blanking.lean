import ThreeAddress.Compile.Basic
import ThreeAddress.Proofs.Lexing.Separation

/-!
# Skipped characters act as blanks

`blankOut` writes a space over every byte of every anomaly. It keeps all tokens
where they are: a lexeme ends in front of an anomaly, so it may as well end in
front of a blank, and an anomaly is as wide as the spaces over it and has no
newline in it. `Blanked` follows the reading of a text and of its blanked-out form
side by side.
-/

namespace ThreeAddress

/-- Whether the byte at an offset belongs to an anomaly. -/
def isSkipped (text : Bytes) (i : Nat) : Bool :=
  (anomalies text).any fun a => a.loc.offset ≤ i ∧ i < (Item.anomaly a).stop text

/-- The text with a space in place of every byte of every anomaly. -/
def blankOut (text : Bytes) : Bytes :=
  text.mapIdx fun i b => if isSkipped text i then 32 else b

/-! ## A text and its blanked-out form -/

/-- The second text is the first with spaces for the anomalies that reading it meets. -/
inductive Blanked : Bytes → Bytes → Prop
  | done : Blanked [] []
  | blank {b : UInt8} {bs bs' : Bytes} : bs.head? = some b → isBlank b = true →
      Blanked (bs.drop 1) bs' → Blanked bs (b :: bs')
  | lexeme {k : Kind} {w bs bs' : Bytes} : lexeme? bs = some (k, w) →
      Blanked (bs.drop w.length) bs' → Blanked bs (w ++ bs')
  | anomaly {b : UInt8} {bs bs' : Bytes} : bs.head? = some b → isBlank b = false →
      lexeme? bs = none → Blanked (bs.drop (Utf8.front bs).2) bs' →
      Blanked bs (.replicate (Utf8.front bs).2 32 ++ bs')

/-- The texts begin alike, up to a blank of the second or the end of both. -/
def AlikeToBlank (bs bs' : Bytes) : Prop :=
  ∃ x y y', bs = x ++ y ∧ bs' = x ++ y' ∧
    (y = [] ∧ y' = [] ∨ ∃ b z, isBlank b = true ∧ y' = b :: z)

theorem alikeToBlank_cons (bs bs' : Bytes) {b : UInt8} (hb : isBlank b = true) :
    AlikeToBlank bs (b :: bs') :=
  ⟨[], bs, b :: bs', rfl, rfl, .inr ⟨b, bs', hb, rfl⟩⟩

theorem Blanked.alikeToBlank {bs bs' : Bytes} (h : Blanked bs bs') : AlikeToBlank bs bs' := by
  induction h with
  | done => exact ⟨[], [], [], rfl, rfl, .inl ⟨rfl, rfl⟩⟩
  | blank _ hblank _ _ => exact alikeToBlank_cons _ _ hblank
  | @lexeme k w bs bs' hfound _ ih =>
      obtain ⟨x, y, y', hbs, hbs', hend⟩ := ih
      refine ⟨w ++ x, y, y', ?_, by rw [hbs', List.append_assoc], hend⟩
      rw [List.append_assoc, ← hbs]
      exact (List.prefix_iff_eq_append.mp (prefix_of_lexeme? hfound)).symm
  | @anomaly b bs bs' _ _ _ _ _ =>
      obtain ⟨m, hm⟩ := Nat.exists_eq_add_of_lt (Utf8.front_width_pos bs)
      rw [hm, Nat.zero_add, List.replicate_succ, List.cons_append]
      exact alikeToBlank_cons _ _ (by decide)

/-- What is cut off behind a lexeme does not change it. -/
theorem lexeme?_of_append {x y w : Bytes} {k : Kind} (h : lexeme? (x ++ y) = some (k, w))
    (hle : w.length ≤ x.length) : lexeme? x = some (k, w) := by
  obtain ⟨hlexeme, hbytes⟩ := lexeme_of_lexeme? h
  have hlongest := longest_of_lexeme? h
  have hfront : w <+: x :=
    List.prefix_of_prefix_length_le (prefix_of_lexeme? h) (List.prefix_append x y) hle
  have hcut : Longest (Bytes.ascii w) k x := by
    refine ⟨hlexeme, by rwa [hbytes], fun s k' hs hfront' => ?_⟩
    exact hlongest.longest s k' hs (hfront'.trans (List.prefix_append x y))
  rw [lexeme?_of_longest hcut, hbytes]

theorem lexeme?_of_alikeToBlank {k : Kind} {w bs bs' : Bytes} (h : lexeme? bs = some (k, w))
    (halike : AlikeToBlank (bs.drop w.length) bs') : lexeme? (w ++ bs') = some (k, w) := by
  obtain ⟨x, y, y', hbs, rfl, hend⟩ := halike
  have hwhole : lexeme? (w ++ x ++ y) = some (k, w) := by
    rw [List.append_assoc, ← hbs, List.prefix_iff_eq_append.mp (prefix_of_lexeme? h), h]
  have hcut : lexeme? (w ++ x) = some (k, w) := lexeme?_of_append hwhole (by simp)
  rw [← List.append_assoc]
  rcases hend with ⟨-, rfl⟩ | ⟨b, z, hblank, rfl⟩
  · rw [List.append_nil, hcut]
  · rw [lexeme?_append_blank hblank, hcut]

theorem Cursor.all_spaces (m : Nat) (bs : Bytes) (l : Location) :
    (ofLoc (.replicate m 32 ++ bs) l).all = (ofLoc bs (l.after (.replicate m 32))).all := by
  induction m generalizing l with
  | zero => rfl
  | succ m ih =>
      rw [List.replicate_succ, List.cons_append, all_of_blank rfl (by decide)]
      exact (congrArg all (past_ofLoc_append [32] _ l)).trans (ih (l.next 32))

/-- The same tokens are read off the blanked-out text, at the same places, and
nothing is skipped. -/
theorem Blanked.all {bs bs' : Bytes} (h : Blanked bs bs') (l : Location) :
    (Cursor.ofLoc bs' l).all.tokens = (Cursor.ofLoc bs l).all.tokens ∧
      (Cursor.ofLoc bs' l).all.skipped = [] := by
  induction h generalizing l with
  | done =>
      rw [Cursor.all_of_end rfl]
      exact ⟨rfl, rfl⟩
  | @blank b bs bs' hb hblank _ ih =>
      obtain ⟨rest, rfl⟩ := List.head?_eq_some_iff.mp hb
      have hread : ∀ more, (Cursor.ofLoc (b :: more) l).all = (Cursor.ofLoc more (l.next b)).all := by
        intro more
        rw [Cursor.all_of_blank rfl hblank]
        exact congrArg Cursor.all (Cursor.past_ofLoc_append [b] more l)
      rw [hread, hread]
      exact ih _
  | @lexeme k w bs bs' hfound hrest ih =>
      have hfound' : lexeme? (w ++ bs') = some (k, w) :=
        lexeme?_of_alikeToBlank hfound hrest.alikeToBlank
      obtain ⟨more, rfl⟩ := prefix_of_lexeme? hfound
      rw [List.drop_left] at ih
      obtain ⟨htokens, hskipped⟩ := ih (l.after w)
      rw [Cursor.all_of_lexeme (c := .ofLoc (w ++ more) l) hfound,
        Cursor.all_of_lexeme (c := .ofLoc (w ++ bs') l) hfound', Cursor.past_ofLoc_append,
        Cursor.past_ofLoc_append, Cursor.loc_ofLoc, Cursor.loc_ofLoc]
      exact ⟨congrArg (_ :: ·) htokens, hskipped⟩
  | @anomaly b bs bs' hb hblank hnone _ ih =>
      -- the spaces end where the anomaly does
      obtain ⟨rest, rfl⟩ := List.head?_eq_some_iff.mp hb
      have hfront := Utf8.frontIs_front (b :: rest)
      have hsolid := Utf8.isBlank_of_frontIs hfront hblank
      have hafter : l.after (.replicate (Utf8.front (b :: rest)).2 32) =
          l.after ((b :: rest).take (Utf8.front (b :: rest)).2) := by
        rw [Location.after_of_newline_not_mem (newline_not_mem hsolid),
          Location.after_of_newline_not_mem (by simp [newline]), List.length_replicate,
          List.length_take_of_le hfront.width_le]
      rw [Cursor.all_spaces, hafter,
        Cursor.all_of_anomaly (c := .ofLoc (b :: rest) l) hb hblank hnone, Cursor.past,
        Cursor.loc_ofLoc]
      exact ih _

/-! ## Which bytes are blanked out -/

theorem isSkipped_eq_true_iff {text : Bytes} {i : Nat} : isSkipped text i = true ↔
    ∃ a ∈ anomalies text, a.loc.offset ≤ i ∧ i < (Item.anomaly a).stop text := by
  simp [isSkipped]

theorem getElem?_blankOut (text : Bytes) (i : Nat) : (blankOut text)[i]? =
    text[i]?.map fun b => if isSkipped text i then 32 else b := by
  rw [blankOut, List.getElem?_mapIdx]

theorem drop_blankOut_of_kept {text : Bytes} {n m : Nat}
    (h : ∀ i, n ≤ i → i < n + m → isSkipped text i = false) :
    (blankOut text).drop n = (text.drop n).take m ++ (blankOut text).drop (n + m) := by
  have htake : ((blankOut text).drop n).take m = (text.drop n).take m := by
    apply List.ext_getElem?
    intro i
    by_cases hi : i < m
    · rw [List.getElem?_take_of_lt hi, List.getElem?_take_of_lt hi, List.getElem?_drop,
        List.getElem?_drop, getElem?_blankOut, h (n + i) (by omega) (by omega)]
      simp
    · rw [List.getElem?_take_eq_none (by omega), List.getElem?_take_eq_none (by omega)]
  rw [← htake, ← List.drop_drop, List.take_append_drop]

theorem drop_blankOut_of_skipped {text : Bytes} {n m : Nat} (hfits : n + m ≤ text.length)
    (h : ∀ i, n ≤ i → i < n + m → isSkipped text i = true) :
    (blankOut text).drop n = .replicate m 32 ++ (blankOut text).drop (n + m) := by
  have htake : ((blankOut text).drop n).take m = .replicate m 32 := by
    apply List.ext_getElem?
    intro i
    by_cases hi : i < m
    · rw [List.getElem?_take_of_lt hi, List.getElem?_drop, getElem?_blankOut,
        h (n + i) (by omega) (by omega), List.getElem?_replicate_of_lt hi,
        List.getElem?_eq_getElem (by omega)]
      rfl
    · rw [List.getElem?_take_eq_none (by omega), List.getElem?_replicate, if_neg hi]
  rw [← htake, ← List.drop_drop, List.take_append_drop]

/-- What is skipped from an offset on lies behind the offset. -/
theorem le_offset_of_mem_skipped {text : Bytes} {n : Nat} (hn : n ≤ text.length) {a : Anomaly}
    (ha : a ∈ ((Cursor.ofBytes text).past n).all.skipped) : n ≤ a.loc.offset := by
  obtain ⟨items, hlaid, -, hskipped⟩ := exists_laid text hn
  rw [← hskipped, Item.mem_filterMap_anomaly?] at ha
  exact (hlaid.bounds _ ha).1

/-- Reading has come to offset `n`: the anomalies so far lie in front of it, and all
others are met from there on. -/
structure Reached (text : Bytes) (n : Nat) (c : Cursor) (before : List Anomaly) : Prop where
  inside : n ≤ text.length
  cursor : c = (Cursor.ofBytes text).past n
  skipped : anomalies text = before ++ c.all.skipped
  behind : ∀ a ∈ before, (Item.anomaly a).stop text ≤ n

namespace Reached

variable {text : Bytes} {n : Nat} {c : Cursor} {before : List Anomaly}

theorem rest_eq (h : Reached text n c before) : c.rest = text.drop n := by
  rw [h.cursor]
  rfl

theorem past_eq (h : Reached text n c before) (m : Nat) :
    c.past m = (Cursor.ofBytes text).past (n + m) := by
  rw [h.cursor, Cursor.past_past]

theorem le_length (h : Reached text n c before) {m : Nat} (hm : m ≤ c.rest.length) :
    n + m ≤ text.length := by
  have hinside := h.inside
  rw [h.rest_eq, List.length_drop] at hm
  omega

/-- Bytes that are passed over without an anomaly are kept. -/
theorem isSkipped_eq_false (h : Reached text n c before) {m : Nat} (hm : m ≤ c.rest.length)
    (hskipped : c.all.skipped = (c.past m).all.skipped) :
    ∀ i, n ≤ i → i < n + m → isSkipped text i = false := by
  intro i hlow hhigh
  rw [Bool.eq_false_iff, Ne, isSkipped_eq_true_iff]
  rintro ⟨a, ha, hstart, hstop⟩
  rw [h.skipped, hskipped, h.past_eq] at ha
  rcases List.mem_append.mp ha with ha | ha
  · have hbehind := h.behind a ha
    omega
  · have hlater := le_offset_of_mem_skipped (h.le_length hm) ha
    omega

theorem pass (h : Reached text n c before) {m : Nat} (hm : m ≤ c.rest.length)
    (hskipped : c.all.skipped = (c.past m).all.skipped) :
    Reached text (n + m) (c.past m) before where
  inside := h.le_length hm
  cursor := h.past_eq m
  skipped := by rw [h.skipped, hskipped]
  behind := by
    intro a ha
    have hbehind := h.behind a ha
    omega

/-- The anomaly at the offset takes the character that stands there. -/
theorem anomaly_bounds (h : Reached text n c before) {b : UInt8} (hb : c.rest.head? = some b)
    (hblank : isBlank b = false) :
    c.loc.offset = n ∧
      (Item.anomaly ⟨(Utf8.front c.rest).1, c.loc⟩).stop text = n + (Utf8.front c.rest).2 := by
  rw [h.rest_eq, List.head?_drop] at hb
  obtain ⟨hstands, hwidth⟩ := standsAt_anomaly hb hblank
  have hstart := hstands.start_eq
  have hloc : c.loc = .ofOffset text n := by
    rw [h.cursor, Cursor.loc_past_ofBytes]
  rw [h.rest_eq, hloc, Item.stop, hstart, hwidth]
  exact ⟨hstart, rfl⟩

/-- Bytes that are passed over as an anomaly are blanked out. -/
theorem isSkipped_eq_true (h : Reached text n c before) {b : UInt8} (hb : c.rest.head? = some b)
    (hblank : isBlank b = false) (hnone : lexeme? c.rest = none) :
    ∀ i, n ≤ i → i < n + (Utf8.front c.rest).2 → isSkipped text i = true := by
  intro i hlow hhigh
  obtain ⟨hstart, hstop⟩ := h.anomaly_bounds hb hblank
  refine isSkipped_eq_true_iff.mpr ⟨⟨(Utf8.front c.rest).1, c.loc⟩, ?_, ?_, ?_⟩
  · rw [h.skipped, Cursor.all_of_anomaly hb hblank hnone]
    simp
  · show c.loc.offset ≤ i
    omega
  · rw [hstop]
    omega

theorem skip (h : Reached text n c before) {b : UInt8} (hb : c.rest.head? = some b)
    (hblank : isBlank b = false) (hnone : lexeme? c.rest = none)
    (hm : (Utf8.front c.rest).2 ≤ c.rest.length) :
    Reached text (n + (Utf8.front c.rest).2) (c.past (Utf8.front c.rest).2)
      (before ++ [⟨(Utf8.front c.rest).1, c.loc⟩]) where
  inside := h.le_length hm
  cursor := h.past_eq _
  skipped := by
    rw [h.skipped, Cursor.all_of_anomaly hb hblank hnone, List.append_assoc]
    rfl
  behind := by
    intro a ha
    rcases List.mem_append.mp ha with ha | ha
    · have hbehind := h.behind a ha
      omega
    · rw [List.mem_singleton.mp ha, (h.anomaly_bounds hb hblank).2]
      omega

end Reached

/-- Blanking out follows the reading. -/
theorem Reached.blanked {text : Bytes} {n : Nat} {c : Cursor} {before : List Anomaly}
    (h : Reached text n c before) : Blanked c.rest ((blankOut text).drop n) := by
  induction c using Cursor.reading_induction generalizing n before with
  | done c hrest =>
      have hlength : (blankOut text).length ≤ n := by
        rw [h.rest_eq, List.drop_eq_nil_iff] at hrest
        simpa [blankOut] using hrest
      rw [hrest, List.drop_eq_nil_of_le hlength]
      exact .done
  | blank c b hb hblank ih =>
      have hm := Cursor.length_pos_of_head? hb
      have hskipped : c.all.skipped = (c.past 1).all.skipped := by
        rw [Cursor.all_of_blank hb hblank]
      have hhead : (text.drop n).take 1 = [b] := by
        rw [← h.rest_eq, List.take_one, hb]
        rfl
      rw [drop_blankOut_of_kept (h.isSkipped_eq_false hm hskipped), hhead]
      exact .blank hb hblank (ih (h.pass hm hskipped))
  | lexeme c k w hfound ih =>
      have hfront := prefix_of_lexeme? hfound
      have hskipped : c.all.skipped = (c.past w.length).all.skipped := by
        rw [Cursor.all_of_lexeme hfound]
      have hword : (text.drop n).take w.length = w := by
        rw [← h.rest_eq, ← List.prefix_iff_eq_take.mp hfront]
      rw [drop_blankOut_of_kept (h.isSkipped_eq_false hfront.length_le hskipped), hword]
      exact .lexeme hfound (ih (h.pass hfront.length_le hskipped))
  | anomaly c b hb hblank hnone ih =>
      have hm := Cursor.front_width_le hb
      rw [drop_blankOut_of_skipped (h.le_length hm) (h.isSkipped_eq_true hb hblank hnone)]
      exact .anomaly hb hblank hnone (ih (h.skip hb hblank hnone hm))

/-- Skipped characters act as blanks. Writing spaces over every anomaly of a text
keeps all tokens as they are, in kind, text and location, and leaves nothing to be
skipped; so both texts compile alike. -/
theorem skipped_characters_act_as_blanks (text : Bytes) :
    tokenize (blankOut text) = tokenize text ∧ anomalies (blankOut text) = [] ∧
    ∀ o source, compile o source (blankOut text) = compile o source text ∧
      compileText o source (blankOut text) = compileText o source text := by
  have hreached : Reached text 0 (Cursor.ofBytes text) [] :=
    ⟨Nat.zero_le _, rfl, rfl, fun _ ha => absurd ha List.not_mem_nil⟩
  obtain ⟨htokens, hskipped⟩ := hreached.blanked.all Location.start
  have htokenize : tokenize (blankOut text) = tokenize text := htokens
  refine ⟨htokenize, hskipped, fun o source => ?_⟩
  have hcompile : compile o source (blankOut text) = compile o source text := by
    rw [compile, compile, htokenize]
  exact ⟨hcompile, by rw [compileText, compileText, hcompile]⟩

end ThreeAddress
