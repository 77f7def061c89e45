import Mathlib.Data.Finset.Basic
import Mathlib.Order.Bounds.Basic
import ThreeAddress.Proofs.Bitmap

/-!
# Calls on bitmaps

Any number of bitmaps, all empty at first, and any calls on them: each answers
what finite sets of natural numbers answer, from which elements are inserted and
taken away (`SetStep`). `call_refines` says so of one call; a run of calls is one
call after the other.

A visitor of elements works on a state of its own. It sees the elements in
increasing order, each once, and none after the one at which it says to stop
(`Visits`).
-/

namespace ThreeAddress.Bitmap

variable {ν σ : Type}

/-- A call on one of several bitmaps, which go by names. -/
inductive Call (ν σ : Type) where
  | set (v : ν) (i : Int)
  | isSet (v : ν) (i : Int)
  /-- Takes the elements of `x` away from `v`. -/
  | andNot (v x : ν)
  | first (v : ν)
  /-- Visits elements until a visit returns `false`. -/
  | range (v : ν) (f : σ → Nat → σ × Bool) (init : σ)

/-- What a call returns. -/
inductive Answer (σ : Type) where
  | done
  | truth (b : Bool)
  | number (i : Int)
  | state (s : σ)
  /-- The call was refused. -/
  | refused (e : NegativeElement)

section Bitmaps

variable [DecidableEq ν]

/-- One call: its answer, and the bitmaps after it. -/
def call (maps : ν → Bitmap) : Call ν σ → Answer σ × (ν → Bitmap)
  | .set v i =>
    match (maps v).set i with
    | .ok s => (.done, Function.update maps v s)
    | .error e => (.refused e, maps)
  | .isSet v i =>
    match (maps v).isSet i with
    | .ok b => (.truth b, maps)
    | .error e => (.refused e, maps)
  | .andNot v x => (.done, Function.update maps v ((maps v).sdiff (maps x)))
  | .first v =>
    match (maps v).first? with
    | some n => (.number n, maps)
    | none => (.number (-1), maps)
  | .range v f init => (.state ((maps v).visit f init), maps)

/-- One call after the other: their answers, and the bitmaps after the last. -/
def run (maps : ν → Bitmap) : List (Call ν σ) → List (Answer σ) × (ν → Bitmap)
  | [] => ([], maps)
  | c :: calls =>
    let (answer, maps) := call maps c
    let (answers, maps) := run maps calls
    (answer :: answers, maps)

end Bitmaps

/-! ## Sets -/

/-- What a visitor that starts from `init` has made of the elements seen so far. -/
def seen (f : σ → Nat → σ × Bool) (init : σ) (ns : List Nat) : σ :=
  ns.foldl (fun state n => (f state n).1) init

/-- The visitor goes through the elements in increasing order and ends up with
`final`: it has visited `past`, and not `rest`. No visit but the last one said to
stop, and the last one did if elements are left. -/
def Visits (f : σ → Nat → σ × Bool) (init : σ) (s : Finset ℕ) (final : σ) : Prop :=
  ∃ past rest : List Nat, (past ++ rest).Pairwise (· < ·) ∧ (∀ n, n ∈ past ++ rest ↔ n ∈ s) ∧
    final = seen f init past ∧
    (∀ before n after, past = before ++ n :: after → after ≠ [] →
      (f (seen f init before) n).2 = true) ∧
    (rest ≠ [] → ∃ before n, past = before ++ [n] ∧ (f (seen f init before) n).2 = false)

/-- One call on sets. -/
inductive SetStep [DecidableEq ν] (sets : ν → Finset ℕ) :
    Call ν σ → Answer σ → (ν → Finset ℕ) → Prop
  | set (v : ν) (n : ℕ) :
      SetStep sets (.set v n) .done (Function.update sets v (Insert.insert n (sets v)))
  | setNegative (v : ν) {i : Int} : i < 0 → SetStep sets (.set v i) (.refused ⟨i⟩) sets
  | isSet (v : ν) (n : ℕ) : SetStep sets (.isSet v n) (.truth (decide (n ∈ sets v))) sets
  | isSetNegative (v : ν) {i : Int} : i < 0 → SetStep sets (.isSet v i) (.refused ⟨i⟩) sets
  | andNot (v x : ν) :
      SetStep sets (.andNot v x) .done (Function.update sets v (sets v \ sets x))
  | first (v : ν) {n : ℕ} : IsLeast (sets v : Set ℕ) n → SetStep sets (.first v) (.number n) sets
  | firstEmpty (v : ν) : sets v = ∅ → SetStep sets (.first v) (.number (-1)) sets
  | range (v : ν) {f : σ → Nat → σ × Bool} {init final : σ} : Visits f init (sets v) final →
      SetStep sets (.range v f init) (.state final) sets

/-- Calls on sets, one after the other. -/
inductive SetRun [DecidableEq ν] :
    (ν → Finset ℕ) → List (Call ν σ) → List (Answer σ) → (ν → Finset ℕ) → Prop
  | nil (sets : ν → Finset ℕ) : SetRun sets [] [] sets
  | cons {sets sets' sets'' : ν → Finset ℕ} {c : Call ν σ} {calls : List (Call ν σ)}
      {answer : Answer σ} {answers : List (Answer σ)} : SetStep sets c answer sets' →
      SetRun sets' calls answers sets'' → SetRun sets (c :: calls) (answer :: answers) sets''

/-! ## One call -/

/-- The bitmap has the elements of the set. -/
def Represents (s : Bitmap) (t : Finset ℕ) : Prop := ∀ n, s.contains n = true ↔ n ∈ t

section Represents

variable {s x : Bitmap} {t u : Finset ℕ}

theorem represents_empty : empty.Represents ∅ := by
  intro n
  simp [contains_empty]

theorem Represents.insert (h : s.Represents t) (n : ℕ) :
    (s.insert n).Represents (Insert.insert n t) := by
  intro m
  rw [contains_insert, Bool.or_eq_true, decide_eq_true_eq, h m, Finset.mem_insert]
  exact or_comm

theorem Represents.sdiff (h : s.Represents t) (h' : x.Represents u) :
    (s.sdiff x).Represents (t \ u) := by
  intro n
  rw [contains_sdiff, Bool.and_eq_true, Bool.not_eq_true', ← Bool.not_eq_true, h n, h' n,
    Finset.mem_sdiff]

theorem Represents.contains_eq (h : s.Represents t) (n : ℕ) : s.contains n = decide (n ∈ t) :=
  Bool.eq_iff_iff.mpr ((h n).trans decide_eq_true_iff.symm)

theorem Represents.isLeast (h : s.Represents t) {n : ℕ} (hn : s.first? = some n) :
    IsLeast (t : Set ℕ) n := by
  obtain ⟨hmem, hle⟩ := least_of_first? hn
  exact ⟨(h n).mp hmem, fun m hm => hle m ((h m).mpr hm)⟩

theorem Represents.eq_empty (h : s.Represents t) (hn : s.first? = none) : t = ∅ := by
  refine Finset.eq_empty_of_forall_notMem fun n hmem => ?_
  have hclear := contains_of_first?_eq_none hn n
  rw [(h n).mpr hmem] at hclear
  cases hclear

/-- Numbers are visited from the front, up to the first visit that says to stop. -/
theorem visitAll_stops (f : σ → Nat → σ × Bool) (init : σ) (ns : List Nat) :
    ∃ past rest, ns = past ++ rest ∧ visitAll f init ns = seen f init past ∧
      (∀ before n after, past = before ++ n :: after → after ≠ [] →
        (f (seen f init before) n).2 = true) ∧
      (rest ≠ [] → ∃ before n, past = before ++ [n] ∧ (f (seen f init before) n).2 = false) := by
  induction ns generalizing init with
  | nil => exact ⟨[], [], rfl, rfl, by simp, by simp⟩
  | cons n ns ih =>
      cases hf : f init n with
      | mk state go =>
          have hstate : ∀ ms, seen f init (n :: ms) = seen f state ms := by
            intro ms
            rw [seen, List.foldl_cons, hf]
            rfl
          cases go with
          | false =>
              refine ⟨[n], ns, rfl, ?_, ?_, fun _ => ⟨[], n, rfl, congrArg Prod.snd hf⟩⟩
              · rw [visitAll, hf, hstate]
                rfl
              · intro before m after hpast hafter
                have hlen := congrArg List.length hpast
                have hpos := List.length_pos_iff.mpr hafter
                simp only [List.length_append, List.length_cons, List.length_nil] at hlen
                omega
          | true =>
              -- the first visit says to go on, so it is not the last unless nothing is left
              obtain ⟨past, rest, rfl, hfinal, hgo, hstop⟩ := ih state
              refine ⟨n :: past, rest, rfl, ?_, ?_, ?_⟩
              · rw [visitAll, hf, hstate]
                exact hfinal
              · intro before m after hpast hafter
                cases before with
                | nil =>
                    obtain ⟨rfl, -⟩ := List.cons.inj hpast
                    exact congrArg Prod.snd hf
                | cons first before =>
                    obtain ⟨rfl, hmore⟩ := List.cons.inj hpast
                    rw [hstate]
                    exact hgo before m after hmore hafter
              · intro hrest
                obtain ⟨before, m, rfl, hm⟩ := hstop hrest
                refine ⟨n :: before, m, rfl, ?_⟩
                rw [hstate]
                exact hm

theorem Represents.visits (h : s.Represents t) (f : σ → Nat → σ × Bool) (init : σ) :
    Visits f init t (s.visit f init) := by
  obtain ⟨past, rest, helements, hfinal, hgo, hstop⟩ := visitAll_stops f init s.elements
  refine ⟨past, rest, ?_, fun n => ?_, hfinal, hgo, hstop⟩
  · rw [← helements]
    exact elements_increasing s
  · rw [← helements, mem_elements]
    exact h n

end Represents

section Calls

variable [DecidableEq ν] {maps : ν → Bitmap} {sets : ν → Finset ℕ}

theorem represents_update (h : ∀ v, (maps v).Represents (sets v)) {v : ν} {s : Bitmap}
    {t : Finset ℕ} (hs : s.Represents t) (w : ν) :
    (Function.update maps v s w).Represents (Function.update sets v t w) := by
  by_cases hw : w = v
  · subst hw
    rwa [Function.update_self, Function.update_self]
  · rw [Function.update_of_ne hw, Function.update_of_ne hw]
    exact h w

/-- A call answers as it does on the sets that the bitmaps represent, and leaves
bitmaps that represent the sets it leaves. -/
theorem call_refines (h : ∀ v, (maps v).Represents (sets v)) (c : Call ν σ) :
    ∃ sets', SetStep sets c (call maps c).1 sets' ∧
      ∀ v, ((call maps c).2 v).Represents (sets' v) := by
  cases c with
  | set v i =>
      rcases Int.lt_or_le i 0 with hi | hi
      · simp only [call, set_of_neg _ hi]
        exact ⟨sets, .setNegative v hi, h⟩
      · obtain ⟨n, rfl⟩ := Int.eq_ofNat_of_zero_le hi
        simp only [call, set_natCast]
        exact ⟨_, .set v n, represents_update h ((h v).insert n)⟩
  | isSet v i =>
      rcases Int.lt_or_le i 0 with hi | hi
      · have hget : (maps v).isSet i = .error ⟨i⟩ := by rw [isSet, element_of_neg hi]; rfl
        simp only [call, hget]
        exact ⟨sets, .isSetNegative v hi, h⟩
      · obtain ⟨n, rfl⟩ := Int.eq_ofNat_of_zero_le hi
        have hget : (maps v).isSet n = .ok (decide (n ∈ sets v)) := by
          rw [isSet, element_of_nonneg hi, ← (h v).contains_eq]
          rfl
        simp only [call, hget]
        exact ⟨sets, .isSet v n, h⟩
  | andNot v x => exact ⟨_, .andNot v x, represents_update h ((h v).sdiff (h x))⟩
  | first v =>
      cases hfirst : (maps v).first? with
      | some n =>
          simp only [call, hfirst]
          exact ⟨sets, .first v ((h v).isLeast hfirst), h⟩
      | none =>
          simp only [call, hfirst]
          exact ⟨sets, .firstEmpty v ((h v).eq_empty hfirst), h⟩
  | range v f init => exact ⟨sets, .range v ((h v).visits f init), h⟩

/-- Calls one after the other, on bitmaps that represent sets. -/
theorem run_refines (h : ∀ v, (maps v).Represents (sets v)) (calls : List (Call ν σ)) :
    ∃ sets', SetRun sets calls (run maps calls).1 sets' ∧
      ∀ v, ((run maps calls).2 v).Represents (sets' v) := by
  induction calls generalizing maps sets with
  | nil => exact ⟨sets, .nil sets, h⟩
  | cons c calls ih =>
      obtain ⟨sets₁, hstep, h₁⟩ := call_refines h c
      obtain ⟨sets₂, hrun, h₂⟩ := ih h₁
      exact ⟨sets₂, .cons hstep hrun, h₂⟩

theorem call_refused {c : Call ν σ} {e : NegativeElement} (h : (call maps c).1 = .refused e) :
    (call maps c).2 = maps := by
  cases c with
  | set v i =>
      cases hset : (maps v).set i with
      | ok s => simp [call, hset] at h
      | error e' => simp only [call, hset]
  | isSet v i => cases hget : (maps v).isSet i <;> simp only [call, hget]
  | andNot v x => cases h
  | first v => cases hfirst : (maps v).first? <;> simp only [call, hfirst]
  | range v f init => rfl

end Calls

/-- A bitmap is a finite set of natural numbers. Whatever calls are made on any
number of bitmaps, all empty at first, they are answered as by sets from which
elements are inserted and taken away, and afterwards each bitmap has the elements
of its set. A call that is refused changes no bitmap, and taking the elements of
one bitmap away from another changes only the latter. -/
theorem bitmaps_are_finite_sets [DecidableEq ν] :
    (∀ calls : List (Call ν σ), ∃ sets,
      SetRun (fun _ => ∅) calls (run (fun _ => empty) calls).1 sets ∧
      ∀ v n, ((run (fun _ => empty) calls).2 v).contains n = true ↔ n ∈ sets v) ∧
    (∀ (maps : ν → Bitmap) (c : Call ν σ) (e : NegativeElement),
      (call maps c).1 = .refused e → (call maps c).2 = maps) ∧
    ∀ (maps : ν → Bitmap) (v x w : ν), w ≠ v →
      (call maps (.andNot v x : Call ν σ)).2 w = maps w :=
  ⟨run_refines fun _ => represents_empty, fun _ _ _ => call_refused,
    fun _ _ _ _ hw => Function.update_of_ne hw _ _⟩

/-- Calls on two bitmaps, with elements on either side of the boundary between two
words and a visitor that stops behind it. -/
def border : List (Call Bool (List Nat)) :=
  [.set true 200, .set true 63, .set true 64, .set false 63, .set true (-1), .isSet true 64,
    .range true (fun past n => (past ++ [n], n < 64)) [], .andNot true false, .first true,
    .andNot true true, .first true]

theorem border_answered_as_by_sets :
    (run (fun _ => empty) border).1 =
      [.done, .done, .done, .done, .refused ⟨-1⟩, .truth true, .state [63, 64], .done, .number 64,
        .done, .number (-1)] ∧
    ∃ sets, SetRun (fun _ => ∅) border (run (fun _ => empty) border).1 sets ∧
      ∀ v n, ((run (fun _ => empty) border).2 v).contains n = true ↔ n ∈ sets v :=
  ⟨by cbv, bitmaps_are_finite_sets.1 border⟩

end ThreeAddress.Bitmap
