import ThreeAddress.Proofs.Lexing.Longest

/-!
# How tokens lie in a text

Lexing accounts for every byte of a text: a byte is blank, or it belongs to one
token or one anomaly. `Laid text n items` says so of the text from offset `n` on.
It goes through the text as the lexer does, a blank or an item at a time, and
tells of an item only where it stands and which bytes it takes
(`Item.StandsAt`); how the lexer finds them does not enter any more.

A cursor stands where counting every byte leads, so the line and the column of an
item are those of its offset.
-/

namespace ThreeAddress

/-! ## Lines and columns -/

namespace Location

/-- The location is that of an offset in the text. Its line is one more than the
newlines before it, and its column is counted from the offset where that line
starts: the front of the text, or right behind a newline. -/
def StandsIn (text : Bytes) (l : Location) : Prop :=
  ∃ offset lineStart : Nat, offset ≤ text.length ∧ l.offset = offset ∧
    l.line = 1 + (text.take offset).count newline ∧
    lineStart ≤ offset ∧ (lineStart = 0 ∨ text[lineStart - 1]? = some newline) ∧
    newline ∉ (text.take offset).drop lineStart ∧
    l.col = offset - lineStart + 1

variable {text : Bytes} {n : Nat}

theorem ofOffset_succ {b : UInt8} (hb : text[n]? = some b) :
    ofOffset text (n + 1) = (ofOffset text n).next b := by
  rw [ofOffset, List.take_add_one, hb, after_append]
  rfl

theorem offset_ofOffset (h : n ≤ text.length) : (ofOffset text n).offset = n := by
  induction n with
  | zero => rfl
  | succ n ih =>
      obtain ⟨b, hb⟩ : ∃ b, text[n]? = some b := ⟨_, List.getElem?_eq_getElem h⟩
      rw [ofOffset_succ hb, next]
      split
      · simp [ih (by omega)]
      · simp [ih (by omega)]

theorem standsIn_ofOffset (h : n ≤ text.length) : (ofOffset text n).StandsIn text := by
  induction n with
  | zero => exact ⟨0, 0, h, rfl, rfl, Nat.le_refl _, .inl rfl, by simp, rfl⟩
  | succ n ih =>
      obtain ⟨b, hb⟩ : ∃ b, text[n]? = some b := ⟨_, List.getElem?_eq_getElem h⟩
      obtain ⟨offset, lineStart, hle, hoffset, hline, hstart, hbegins, hrest, hcol⟩ :=
        ih (by omega)
      obtain rfl : offset = n := by
        have := @offset_ofOffset text n (by omega)
        omega
      have htake : text.take (offset + 1) = text.take offset ++ [b] := by
        rw [List.take_add_one, hb]
        rfl
      rw [ofOffset_succ hb, next]
      by_cases hnewline : b = newline
      · -- a new line starts right behind the newline
        rw [if_pos hnewline]
        refine ⟨offset + 1, offset + 1, h, ?_, ?_, Nat.le_refl _, .inr ?_, ?_, ?_⟩
        · simp [hoffset]
        · simp [htake, hline, hnewline]
          omega
        · simpa [hnewline] using hb
        · simp
        · simp
      · rw [if_neg hnewline]
        refine ⟨offset + 1, lineStart, h, ?_, ?_, by omega, hbegins, ?_, ?_⟩
        · simp [hoffset]
        · simp [htake, hline, hnewline]
        · have hlen : lineStart ≤ (text.take offset).length := by simp; omega
          rw [htake, List.drop_append_of_le_length hlen, List.mem_append, List.mem_singleton]
          rintro (hmem | rfl)
          · exact hrest hmem
          · exact hnewline rfl
        · simp [hcol]
          omega

end Location

/-! ## Items -/

/-- What lexing finds in a text: a token or an anomaly. -/
inductive Item where
  | token (t : Token)
  | anomaly (a : Anomaly)

namespace Item

def loc : Item → Location
  | .token t => t.loc
  | .anomaly a => a.loc

/-- How many bytes of the text an item takes: those of its text, or those of the
character that stands there. -/
def width (text : Bytes) : Item → Nat
  | .token t => (Bytes.ofString t.text).length
  | .anomaly a => (Utf8.front (text.drop a.loc.offset.toNat)).2

/-- The offset where an item starts. -/
def start (x : Item) : Int := x.loc.offset

/-- The offset right behind an item. -/
def stop (text : Bytes) (x : Item) : Int := x.start + x.width text

def token? : Item → Option Token
  | .token t => some t
  | .anomaly _ => none

def anomaly? : Item → Option Anomaly
  | .token _ => none
  | .anomaly a => some a

theorem token?_eq_some_iff {x : Item} {t : Token} : x.token? = some t ↔ x = .token t := by
  cases x <;> simp [token?]

theorem anomaly?_eq_some_iff {x : Item} {a : Anomaly} : x.anomaly? = some a ↔ x = .anomaly a := by
  cases x <;> simp [anomaly?]

theorem mem_filterMap_token? {xs : List Item} {t : Token} :
    t ∈ xs.filterMap token? ↔ .token t ∈ xs := by
  simp [token?_eq_some_iff]

theorem mem_filterMap_anomaly? {xs : List Item} {a : Anomaly} :
    a ∈ xs.filterMap anomaly? ↔ .anomaly a ∈ xs := by
  simp [anomaly?_eq_some_iff]

/-- An item other than the end of input stands at offset `n` of the text: it takes
some bytes there, none of them blank. -/
structure StandsAt (text : Bytes) (n : Nat) (x : Item) : Prop where
  loc : x.loc = .ofOffset text n
  nonempty : 0 < x.width text
  fits : n + x.width text ≤ text.length
  solid : ∀ b ∈ (text.drop n).take (x.width text), isBlank b = false
  token : ∀ t, x = .token t →
    t.kind ≠ .eof ∧ Bytes.ofString t.text = (text.drop n).take (x.width text)
  anomaly : ∀ a, x = .anomaly a → Utf8.FrontIs (text.drop n) a.char (x.width text)

theorem StandsAt.start_eq {text : Bytes} {n : Nat} {x : Item} (h : x.StandsAt text n) :
    x.start = n := by
  have hfits := h.fits
  rw [start, h.loc, Location.offset_ofOffset (by omega)]

end Item

/-- The tokens and the anomalies of a text, merged by their offsets. -/
def items (text : Bytes) : List Item :=
  ((tokenize text).map .token).merge ((anomalies text).map .anomaly) fun x y => x.start ≤ y.start

/-! ## Where items stand -/

theorem Lexeme.solid {s : String} {k : Kind} (h : Lexeme s k) :
    ∀ b ∈ Bytes.ofString s, isBlank b = false := lexeme?_solid h.lexeme?_self

theorem standsAt_token {text : Bytes} {n : Nat} {k : Kind} {w : Bytes}
    (h : lexeme? (text.drop n) = some (k, w)) :
    (Item.token ⟨k, Bytes.ascii w, .ofOffset text n⟩).StandsAt text n ∧
      (Item.token ⟨k, Bytes.ascii w, .ofOffset text n⟩).width text = w.length := by
  obtain ⟨-, hbytes⟩ := lexeme_of_lexeme? h
  have hwidth : (Item.token ⟨k, Bytes.ascii w, .ofOffset text n⟩).width text = w.length :=
    congrArg List.length hbytes
  have htake : (text.drop n).take w.length = w :=
    (List.prefix_iff_eq_take.mp (prefix_of_lexeme? h)).symm
  refine ⟨⟨rfl, ?_, ?_, ?_, ?_, ?_⟩, hwidth⟩
  · rw [hwidth]
    exact List.length_pos_iff.mpr (lexeme?_ne_nil h)
  · have hle := (prefix_of_lexeme? h).length_le
    have hpos := List.length_pos_iff.mpr (lexeme?_ne_nil h)
    rw [List.length_drop] at hle
    omega
  · rw [hwidth, htake]
    exact lexeme?_solid h
  · rintro t ⟨⟩
    rw [hwidth, htake]
    exact ⟨lexeme?_kind_ne_eof h, hbytes⟩
  · rintro a ⟨⟩

theorem standsAt_anomaly {text : Bytes} {n : Nat} {b : UInt8} (hb : text[n]? = some b)
    (hblank : isBlank b = false) :
    (Item.anomaly ⟨(Utf8.front (text.drop n)).1, .ofOffset text n⟩).StandsAt text n ∧
      (Item.anomaly ⟨(Utf8.front (text.drop n)).1, .ofOffset text n⟩).width text =
        (Utf8.front (text.drop n)).2 := by
  obtain ⟨hn, hget⟩ := List.getElem?_eq_some_iff.mp hb
  have hwidth : (Item.anomaly ⟨(Utf8.front (text.drop n)).1, .ofOffset text n⟩).width text =
      (Utf8.front (text.drop n)).2 := by
    show (Utf8.front (text.drop (Location.ofOffset text n).offset.toNat)).2 = _
    rw [Location.offset_ofOffset (by omega)]
    rfl
  have hdrop : text.drop n = b :: text.drop (n + 1) := by
    rw [← hget, List.getElem_cons_drop]
  have hfront := Utf8.frontIs_front (text.drop n)
  refine ⟨⟨rfl, ?_, ?_, ?_, ?_, ?_⟩, hwidth⟩
  · rw [hwidth]
    exact hfront.width_pos
  · have hle : (Utf8.front (text.drop n)).2 ≤ (text.drop n).length := by
      rw [hdrop] at hfront ⊢
      exact hfront.width_le
    rw [List.length_drop] at hle
    omega
  · rw [hwidth]
    rw [hdrop] at hfront ⊢
    exact Utf8.isBlank_of_frontIs hfront hblank
  · rintro t ⟨⟩
  · rintro a ⟨⟩
    rw [hwidth]
    exact hfront

/-! ## The layout of a text -/

/-- The items of the text from offset `n` on. Everything between them is blank, and
the end of input stands at the end. -/
inductive Laid (text : Bytes) : Nat → List Item → Prop
  | done : Laid text text.length [.token ⟨.eof, "", .ofOffset text text.length⟩]
  | blank {n : Nat} {b : UInt8} {items : List Item} : text[n]? = some b → isBlank b = true →
      Laid text (n + 1) items → Laid text n items
  | item {n : Nat} {x : Item} {items : List Item} : x.StandsAt text n →
      Laid text (n + x.width text) items → Laid text n (x :: items)

/-- What is read from an offset on lies in the text. -/
theorem exists_laid (text : Bytes) {n : Nat} (hn : n ≤ text.length) : ∃ items, Laid text n items ∧
    items.filterMap Item.token? = ((Cursor.ofBytes text).past n).all.tokens ∧
    items.filterMap Item.anomaly? = ((Cursor.ofBytes text).past n).all.skipped := by
  induction hk : text.length - n using Nat.strongRecOn generalizing n with
  | ind k ih =>
      subst hk
      rcases Nat.eq_or_lt_of_le hn with rfl | hlt
      · refine ⟨_, .done, ?_⟩
        rw [Cursor.all_of_end List.drop_length, Cursor.loc_past_ofBytes]
        exact ⟨rfl, rfl⟩
      · obtain ⟨b, hb⟩ : ∃ b, text[n]? = some b := ⟨_, List.getElem?_eq_getElem hlt⟩
        have hhead : ((Cursor.ofBytes text).past n).rest.head? = some b := by
          rw [← hb]
          exact List.head?_drop
        by_cases hblank : isBlank b = true
        · obtain ⟨items, hlaid, hitems⟩ := ih _ (by omega) hlt rfl
          refine ⟨items, .blank hb hblank hlaid, ?_⟩
          rw [Cursor.all_of_blank hhead hblank, Cursor.past_past]
          exact hitems
        · rw [Bool.not_eq_true] at hblank
          cases hfound : lexeme? (text.drop n) with
          | some found =>
              obtain ⟨k, w⟩ := found
              obtain ⟨hstands, hwidth⟩ := standsAt_token hfound
              have hpos := hstands.nonempty
              obtain ⟨items, hlaid, htokens, hskipped⟩ := ih _ (by omega) hstands.fits rfl
              refine ⟨_, .item hstands hlaid, ?_⟩
              rw [hwidth] at htokens hskipped
              rw [Cursor.all_of_lexeme hfound, Cursor.past_past, Cursor.loc_past_ofBytes]
              exact ⟨congrArg _ htokens, hskipped⟩
          | none =>
              obtain ⟨hstands, hwidth⟩ := standsAt_anomaly hb hblank
              have hpos := hstands.nonempty
              obtain ⟨items, hlaid, htokens, hskipped⟩ := ih _ (by omega) hstands.fits rfl
              refine ⟨_, .item hstands hlaid, ?_⟩
              rw [hwidth] at htokens hskipped
              rw [Cursor.all_of_anomaly hhead hblank hfound, Cursor.past_past,
                Cursor.loc_past_ofBytes]
              exact ⟨htokens, congrArg _ hskipped⟩

namespace Laid

variable {text : Bytes} {n : Nat} {items : List Item}

/-- Items lie behind the offset and inside the text. -/
theorem bounds (h : Laid text n items) :
    ∀ x ∈ items, n ≤ x.start ∧ x.stop text ≤ text.length := by
  induction h with
  | done =>
      intro x hx
      rw [List.mem_singleton] at hx
      subst hx
      have hend : (Item.token ⟨.eof, "", .ofOffset text text.length⟩).start = text.length :=
        Location.offset_ofOffset (Nat.le_refl _)
      rw [Item.stop, hend]
      simp [Item.width, Bytes.ofString]
  | blank _ _ _ ih =>
      intro x hx
      obtain ⟨hstart, hstop⟩ := ih x hx
      exact ⟨by omega, hstop⟩
  | @item n x items hx _ ih =>
      have hstart := hx.start_eq
      have hfits := hx.fits
      have hpos := hx.nonempty
      intro y hy
      rcases List.mem_cons.mp hy with rfl | hy
      · rw [Item.stop, hstart]
        omega
      · obtain ⟨hlow, hhigh⟩ := ih y hy
        exact ⟨by omega, hhigh⟩

/-- Items lie one behind the other. -/
theorem ordered (h : Laid text n items) :
    items.Pairwise fun x y => x.start < y.start ∧ x.stop text ≤ y.start := by
  induction h with
  | done => exact List.pairwise_singleton _ _
  | blank _ _ _ ih => exact ih
  | @item n x items hx hitems ih =>
      refine List.pairwise_cons.mpr ⟨fun y hy => ?_, ih⟩
      have hstart := hx.start_eq
      have hpos := hx.nonempty
      have hlow := (hitems.bounds y hy).1
      rw [Item.stop, hstart]
      omega

/-- A byte is blank if no item takes it, and only then. -/
theorem isBlank_iff_not_covered (h : Laid text n items) {i : Nat} (hi : n ≤ i) {b : UInt8}
    (hb : text[i]? = some b) :
    isBlank b = true ↔ ¬ ∃ x ∈ items, x.start ≤ i ∧ i < x.stop text := by
  induction h with
  | done =>
      obtain ⟨hlt, -⟩ := List.getElem?_eq_some_iff.mp hb
      omega
  | @blank n c items hc hblank hitems ih =>
      by_cases hin : i = n
      · -- the blank itself: all items lie behind it
        subst hin
        rw [hb] at hc
        cases hc
        refine iff_of_true hblank ?_
        rintro ⟨x, hx, hstart, -⟩
        have hlow := (hitems.bounds x hx).1
        omega
      · exact ih (by omega)
  | @item n x items hx hitems ih =>
      have hstart := hx.start_eq
      by_cases hin : i < n + x.width text
      · -- a byte of the item, none of which is blank
        have hmem : b ∈ (text.drop n).take (x.width text) := by
          refine List.mem_of_getElem? (i := i - n) ?_
          rw [List.getElem?_take_of_lt (by omega), List.getElem?_drop, ← hb]
          congr 1
          omega
        refine iff_of_false (by simp [hx.solid b hmem]) (not_not.mpr ⟨x, List.mem_cons_self, ?_⟩)
        rw [Item.stop, hstart]
        omega
      · rw [ih (by omega), not_iff_not]
        constructor
        · rintro ⟨y, hy, hcover⟩
          exact ⟨y, List.mem_cons_of_mem _ hy, hcover⟩
        · rintro ⟨y, hy, hcover⟩
          rcases List.mem_cons.mp hy with rfl | hy
          · rw [Item.stop, hstart] at hcover
            omega
          · exact ⟨y, hy, hcover⟩

/-- The end of input is the last item, and all others stand at their offsets. -/
theorem exists_init (h : Laid text n items) : ∃ init,
    items = init ++ [.token ⟨.eof, "", .ofOffset text text.length⟩] ∧
      ∀ x ∈ init, ∃ m, x.StandsAt text m := by
  induction h with
  | done => exact ⟨[], rfl, by simp⟩
  | blank _ _ _ ih => exact ih
  | @item n x items hx _ ih =>
      obtain ⟨init, rfl, hinit⟩ := ih
      exact ⟨x :: init, rfl, List.forall_mem_cons.mpr ⟨⟨n, hx⟩, hinit⟩⟩

end Laid

/-! ## Tokens and anomalies merged -/

theorem merge_cons_left {α : Type} {le : α → α → Bool} {x : α} {ys : List α}
    (h : ∀ y ∈ ys, le x y = true) (xs : List α) :
    (x :: xs).merge ys le = x :: xs.merge ys le := by
  cases ys with
  | nil => simp
  | cons y ys => rw [List.cons_merge_cons_pos _ _ _ (h y List.mem_cons_self)]

theorem merge_cons_right {α : Type} {le : α → α → Bool} {y : α} {xs : List α}
    (h : ∀ x ∈ xs, ¬ le x y = true) (ys : List α) :
    xs.merge (y :: ys) le = y :: xs.merge ys le := by
  cases xs with
  | nil => simp
  | cons x xs => rw [List.cons_merge_cons_neg _ _ _ (h x List.mem_cons_self)]

/-- Items in the order of their offsets are the merge of the tokens and the
anomalies among them. -/
theorem merge_of_ordered {xs : List Item} (h : xs.Pairwise fun x y => x.start < y.start) :
    ((xs.filterMap Item.token?).map Item.token).merge
      ((xs.filterMap Item.anomaly?).map Item.anomaly) (fun x y => x.start ≤ y.start) = xs := by
  induction xs with
  | nil => simp
  | cons x xs ih =>
      obtain ⟨hx, hxs⟩ := List.pairwise_cons.mp h
      cases x with
      | token t =>
          have hle : ∀ y ∈ (xs.filterMap Item.anomaly?).map Item.anomaly,
              decide ((Item.token t).start ≤ y.start) = true := by
            intro y hy
            obtain ⟨a, ha, rfl⟩ := List.mem_map.mp hy
            exact decide_eq_true (Int.le_of_lt (hx _ (Item.mem_filterMap_anomaly?.mp ha)))
          exact (merge_cons_left hle _).trans (congrArg _ (ih hxs))
      | anomaly a =>
          have hlt : ∀ y ∈ (xs.filterMap Item.token?).map Item.token,
              ¬ decide (y.start ≤ (Item.anomaly a).start) = true := by
            intro y hy
            obtain ⟨t, ht, rfl⟩ := List.mem_map.mp hy
            rw [decide_eq_true_iff, Int.not_le]
            exact hx _ (Item.mem_filterMap_token?.mp ht)
          exact (merge_cons_right hlt _).trans (congrArg _ (ih hxs))

theorem laid_items (text : Bytes) :
    Laid text 0 (items text) ∧ (items text).filterMap Item.token? = tokenize text := by
  obtain ⟨xs, hlaid, htokens, hskipped⟩ := exists_laid text (Nat.zero_le _)
  have hmerge := merge_of_ordered (hlaid.ordered.imp And.left)
  rw [htokens, hskipped] at hmerge
  have hitems : items text = xs := hmerge
  rw [hitems]
  exact ⟨hlaid, htokens⟩

theorem token_mem_items {text : Bytes} {t : Token} :
    .token t ∈ items text ↔ t ∈ tokenize text := by
  simp [items, List.mem_merge]

theorem anomaly_mem_items {text : Bytes} {a : Anomaly} :
    .anomaly a ∈ items text ↔ a ∈ anomalies text := by
  simp [items, List.mem_merge]

/-- Everything that is found has the line and the column of its offset. -/
theorem standsIn_of_mem_items {text : Bytes} {x : Item} (hx : x ∈ items text) :
    x.loc.StandsIn text := by
  obtain ⟨init, hitems, hinit⟩ := (laid_items text).1.exists_init
  rw [hitems, List.mem_append, List.mem_singleton] at hx
  rcases hx with hx | rfl
  · obtain ⟨m, hm⟩ := hinit x hx
    have hfits := hm.fits
    rw [hm.loc]
    exact Location.standsIn_ofOffset (by omega)
  · exact Location.standsIn_ofOffset (Nat.le_refl _)

/-- Everything but the end of input stands at its offset. -/
theorem standsAt_of_mem_items {text : Bytes} {x : Item} (hx : x ∈ items text)
    (hend : ∀ t, x = .token t → t.kind ≠ .eof) : ∃ m : Nat, x.start = m ∧ x.StandsAt text m := by
  obtain ⟨init, hitems, hinit⟩ := (laid_items text).1.exists_init
  rw [hitems, List.mem_append, List.mem_singleton] at hx
  rcases hx with hx | rfl
  · obtain ⟨m, hm⟩ := hinit x hx
    exact ⟨m, hm.start_eq, hm⟩
  · exact absurd rfl (hend _ rfl)

/-- The end of input comes once, behind all other tokens. -/
theorem tokenize_end (text : Bytes) : ∃ init,
    tokenize text = init ++ [⟨.eof, "", .ofOffset text text.length⟩] ∧
      ∀ t ∈ init, t.kind ≠ .eof := by
  obtain ⟨hlaid, htokens⟩ := laid_items text
  obtain ⟨init, hitems, hinit⟩ := hlaid.exists_init
  refine ⟨init.filterMap Item.token?, ?_, ?_⟩
  · rw [← htokens, hitems, List.filterMap_append]
    rfl
  · intro t ht
    obtain ⟨m, hm⟩ := hinit _ (Item.mem_filterMap_token?.mp ht)
    exact (hm.token t rfl).1

/-- Lexing accounts for every byte of a text. What it finds, tokens and anomalies
merged by their offsets, takes disjoint stretches of the text one behind the
other; a byte that none of them takes is a blank, and no other is. A token is the
bytes it takes, and an anomaly the character or the stray byte that stands there.
The end of input comes once, last, behind the last byte. Lines and columns are
those of the offsets. -/
theorem every_byte_is_accounted_for (text : Bytes) :
    ((items text).Pairwise fun x y => x.start < y.start ∧ x.stop text ≤ y.start) ∧
    (∀ t ∈ tokenize text, t.kind ≠ .eof → t.text ≠ "" ∧
      ∃ front back, text = front ++ Bytes.ofString t.text ++ back ∧
        t.loc.offset = front.length) ∧
    (∀ a ∈ anomalies text, ∃ front back, text = front ++ back ∧ a.loc.offset = front.length ∧
      Utf8.FrontIs back a.char ((Item.anomaly a).width text)) ∧
    (∀ (i : Nat) (b : UInt8), text[i]? = some b →
      (b ∈ [32, 9, 13, 10, 12, 11] ↔ ¬ ∃ x ∈ items text, x.start ≤ i ∧ i < x.stop text)) ∧
    (∃ (init : List Token) (loc : Location),
      tokenize text = init ++ [⟨.eof, "", loc⟩] ∧ loc.offset = text.length ∧
      ∀ t ∈ init, t.kind ≠ .eof) ∧
    ∀ x ∈ items text, x.loc.StandsIn text := by
  obtain ⟨hlaid, -⟩ := laid_items text
  refine ⟨hlaid.ordered, ?_, ?_, ?_, ?_, fun x => standsIn_of_mem_items⟩
  · intro t ht hkind
    obtain ⟨m, hstart, hm⟩ := standsAt_of_mem_items (token_mem_items.mpr ht)
      (by rintro _ ⟨⟩; exact hkind)
    have hfits := hm.fits
    refine ⟨?_, text.take m, text.drop (m + (Item.token t).width text), ?_, ?_⟩
    · rintro hempty
      have hpos := hm.nonempty
      simp [Item.width, hempty, Bytes.ofString] at hpos
    · rw [(hm.token t rfl).2, List.append_assoc, ← List.drop_drop, List.take_append_drop,
        List.take_append_drop]
    · rw [List.length_take, Nat.min_eq_left (by omega)]
      exact hstart
  · intro a ha
    obtain ⟨m, hstart, hm⟩ := standsAt_of_mem_items (anomaly_mem_items.mpr ha) (by rintro _ ⟨⟩)
    have hfits := hm.fits
    refine ⟨text.take m, text.drop m, (List.take_append_drop m text).symm, ?_, hm.anomaly a rfl⟩
    rw [List.length_take, Nat.min_eq_left (by omega)]
    exact hstart
  · intro i b hb
    rw [← isBlank_iff]
    exact hlaid.isBlank_iff_not_covered (Nat.zero_le i) hb
  · obtain ⟨init, hinit, hkinds⟩ := tokenize_end text
    exact ⟨init, _, hinit, Location.offset_ofOffset (Nat.le_refl _), hkinds⟩

/-- A letter, a newline, a blank, a character of two bytes, a sign of two bytes and
a byte that is no text. -/
def motley : Bytes := [97, 10, 32, 195, 169, 60, 61, 255]

theorem motley_is_accounted_for :
    tokenize motley =
      [⟨.ident, "a", ⟨0, 1, 1⟩⟩, ⟨.lessEq, "<=", ⟨5, 2, 4⟩⟩, ⟨.eof, "", ⟨8, 2, 7⟩⟩] ∧
    anomalies motley = [⟨'é', ⟨3, 2, 2⟩⟩, ⟨Utf8.replacement, ⟨7, 2, 6⟩⟩] ∧
    (∃ front back, motley = front ++ Bytes.ofString "<=" ++ back ∧ (5 : Int) = front.length) ∧
    (∃ front back, motley = front ++ back ∧ (3 : Int) = front.length ∧
      Utf8.FrontIs back 'é' ((Item.anomaly ⟨'é', ⟨3, 2, 2⟩⟩).width motley)) ∧
    (¬ ∃ x ∈ items motley, x.start ≤ 2 ∧ 2 < x.stop motley) ∧
    Location.StandsIn motley ⟨8, 2, 7⟩ := by
  have htokens : tokenize motley =
      [⟨.ident, "a", ⟨0, 1, 1⟩⟩, ⟨.lessEq, "<=", ⟨5, 2, 4⟩⟩, ⟨.eof, "", ⟨8, 2, 7⟩⟩] := by
    decide +kernel
  have hskipped : anomalies motley = [⟨'é', ⟨3, 2, 2⟩⟩, ⟨Utf8.replacement, ⟨7, 2, 6⟩⟩] := by
    decide +kernel
  obtain ⟨-, hwords, hstray, hblank, -, hlocs⟩ := every_byte_is_accounted_for motley
  have hend := token_mem_items.mpr
    (show (⟨.eof, "", ⟨8, 2, 7⟩⟩ : Token) ∈ tokenize motley by simp [htokens])
  exact ⟨htokens, hskipped,
    (hwords ⟨.lessEq, "<=", ⟨5, 2, 4⟩⟩ (by simp [htokens]) (by decide)).2,
    hstray ⟨'é', ⟨3, 2, 2⟩⟩ (by simp [hskipped]),
    (hblank 2 32 rfl).mp (by decide), hlocs _ hend⟩

end ThreeAddress
