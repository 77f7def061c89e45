/-!
# Runs of deterministic systems

A system is given by one function: a step either leads on to a next state or
ends the run with an outcome. A run of it ends with one outcome or goes on
forever, and nothing else can happen.

`Simulation` relates two systems. Its two squares say what one step of the
first system is matched by in the second; `Simulation.endsWith` and
`Simulation.runsForever` carry that over to whole runs. A step is matched by
at least one step, so a run that never ends is matched by one that never ends.
-/

namespace ThreeAddress.Execution

universe u v w x

variable {S : Type u} {O : Type v}

/-- The state after `n` steps, or the outcome if the run has ended by then. -/
def steps (step : S → Except O S) : Nat → S → Except O S
  | 0, s => .ok s
  | n + 1, s =>
    match step s with
    | .ok t => steps step n t
    | .error o => .error o

/-- The run from `s` ends with outcome `o`. -/
def EndsWith (step : S → Except O S) (s : S) (o : O) : Prop :=
  ∃ n, steps step n s = .error o

/-- The run from `s` never ends. -/
def RunsForever (step : S → Except O S) (s : S) : Prop :=
  ∀ n, ∃ t, steps step n s = .ok t

/-- Some steps, maybe none, lead from `s` to `t`. -/
def Leads (step : S → Except O S) (s t : S) : Prop :=
  ∃ n, steps step n s = .ok t

/-- One step or more lead from `s` to `t`. -/
def LeadsOn (step : S → Except O S) (s t : S) : Prop :=
  ∃ n, steps step (n + 1) s = .ok t

variable {step : S → Except O S} {s t r : S} {o : O}

@[simp] theorem steps_zero : steps step 0 s = .ok s := rfl

theorem steps_succ (n : Nat) : steps step (n + 1) s = (step s).bind (steps step n) := by
  cases h : step s <;> simp [steps, h, Except.bind]

theorem steps_add (m n : Nat) :
    steps step (m + n) s = (steps step m s).bind (steps step n) := by
  induction m generalizing s with
  | zero => simp [Except.bind]
  | succ m ih =>
      rw [Nat.succ_add_eq_add_succ, Nat.add_succ, steps_succ, steps_succ]
      cases step s with
      | error o => rfl
      | ok t => exact ih

/-- A run that has come far has come less far before. -/
theorem steps_ok_of_le {m n : Nat} (hmn : m ≤ n) (h : steps step n s = .ok t) :
    ∃ r, steps step m s = .ok r := by
  obtain ⟨k, rfl⟩ := Nat.exists_eq_add_of_le hmn
  rw [steps_add] at h
  cases hm : steps step m s with
  | error o => rw [hm] at h; cases h
  | ok r => exact ⟨r, rfl⟩

/-- Every run ends or goes on forever. -/
theorem endsWith_or_runsForever (step : S → Except O S) (s : S) :
    (∃ o, EndsWith step s o) ∨ RunsForever step s := by
  by_cases h : ∃ o, EndsWith step s o
  · exact .inl h
  · refine .inr fun n => ?_
    cases hn : steps step n s with
    | error o => exact absurd ⟨o, n, hn⟩ h
    | ok t => exact ⟨t, rfl⟩

/-! ## Putting runs together -/

theorem Leads.refl (s : S) : Leads step s s := ⟨0, rfl⟩

theorem Leads.trans (h : Leads step s t) (h' : Leads step t r) : Leads step s r := by
  obtain ⟨m, hm⟩ := h
  obtain ⟨n, hn⟩ := h'
  exact ⟨m + n, by rw [steps_add, hm]; exact hn⟩

theorem LeadsOn.single (h : step s = .ok t) : LeadsOn step s t :=
  ⟨0, by rw [steps_succ, h]; rfl⟩

theorem LeadsOn.leads (h : LeadsOn step s t) : Leads step s t := by
  obtain ⟨n, hn⟩ := h
  exact ⟨n + 1, hn⟩

theorem Leads.single (h : step s = .ok t) : Leads step s t := (LeadsOn.single h).leads

theorem Leads.trans_leadsOn (h : Leads step s t) (h' : LeadsOn step t r) : LeadsOn step s r := by
  obtain ⟨m, hm⟩ := h
  obtain ⟨n, hn⟩ := h'
  exact ⟨m + n, by rw [Nat.add_assoc, steps_add, hm]; exact hn⟩

theorem EndsWith.single (h : step s = .error o) : EndsWith step s o :=
  ⟨1, by rw [steps_succ, h]; rfl⟩

theorem Leads.trans_endsWith (h : Leads step s t) (h' : EndsWith step t o) :
    EndsWith step s o := by
  obtain ⟨m, hm⟩ := h
  obtain ⟨n, hn⟩ := h'
  exact ⟨m + n, by rw [steps_add, hm]; exact hn⟩

/-! ## Simulations -/

variable {T : Type w} {Q : Type x} {step₂ : T → Except Q T}

/-- Matches the steps of one system by runs of another. `rel` relates states,
`out` relates outcomes. -/
structure Simulation (step : S → Except O S) (step₂ : T → Except Q T) where
  rel : S → T → Prop
  out : O → Q → Prop
  square : ∀ {s s' t}, rel s t → step s = .ok s' → ∃ t', LeadsOn step₂ t t' ∧ rel s' t'
  close : ∀ {s o t}, rel s t → step s = .error o → ∃ q, EndsWith step₂ t q ∧ out o q

/-- A run that ends is matched by a run that ends, with a related outcome. -/
theorem Simulation.endsWith (sim : Simulation step step₂) {t : T} (hst : sim.rel s t)
    (h : EndsWith step s o) : ∃ q, EndsWith step₂ t q ∧ sim.out o q := by
  obtain ⟨n, hn⟩ := h
  induction n generalizing s t with
  | zero => cases hn
  | succ n ih =>
      rw [steps_succ] at hn
      cases hs : step s with
      | error o' =>
          rw [hs] at hn
          cases hn
          exact sim.close hst hs
      | ok s' =>
          rw [hs] at hn
          obtain ⟨t', ht, hrel⟩ := sim.square hst hs
          obtain ⟨q, hq, hout⟩ := ih hrel hn
          exact ⟨q, ht.leads.trans_endsWith hq, hout⟩

/-- A run that goes on forever is matched by one that goes on forever. -/
theorem Simulation.runsForever (sim : Simulation step step₂) {t : T} (hst : sim.rel s t)
    (h : RunsForever step s) : RunsForever step₂ t := by
  -- `n` steps of the first system force at least `n` steps of the second.
  have far : ∀ n s t, sim.rel s t → RunsForever step s →
      ∃ m, n ≤ m ∧ ∃ t', steps step₂ m t = .ok t' := by
    intro n
    induction n with
    | zero => exact fun _ t _ _ => ⟨0, Nat.le_refl _, t, rfl⟩
    | succ n ih =>
        intro s t hst h
        obtain ⟨s', hs⟩ : ∃ s', step s = .ok s' := by
          obtain ⟨s', hs⟩ := h 1
          rw [steps_succ] at hs
          cases h' : step s with
          | error o => rw [h'] at hs; cases hs
          | ok s' => exact ⟨s', rfl⟩
        have h' : RunsForever step s' := by
          intro k
          obtain ⟨r, hr⟩ := h (k + 1)
          rw [steps_succ, hs] at hr
          exact ⟨r, hr⟩
        obtain ⟨t', ⟨k, hk⟩, hrel⟩ := sim.square hst hs
        obtain ⟨m, hm, r, hr⟩ := ih s' t' hrel h'
        exact ⟨k + 1 + m, by omega, r, by rw [steps_add, hk]; exact hr⟩
  intro n
  obtain ⟨m, hm, t', ht⟩ := far n s t hst h
  exact steps_ok_of_le hm ht

end ThreeAddress.Execution
