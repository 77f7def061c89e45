/-!
# Computations that may fail

When a computation put together from several goes through, and with which error
it fails if it does not.
-/

namespace ThreeAddress

universe u v w

variable {ε : Type u} {ε' : Type w} {α β : Type v}

@[simp] theorem ok_bind (a : α) (f : α → Except ε β) : (.ok a >>= f) = f a := rfl

@[simp] theorem error_bind (e : ε) (f : α → Except ε β) :
    ((.error e : Except ε α) >>= f) = .error e := rfl

theorem bind_eq_ok_iff {x : Except ε α} {f : α → Except ε β} {b : β} :
    x >>= f = .ok b ↔ ∃ a, x = .ok a ∧ f a = .ok b := by
  cases x with
  | error e => simp
  | ok a => simp

theorem bind_eq_error_iff {x : Except ε α} {f : α → Except ε β} {e : ε} :
    x >>= f = .error e ↔ x = .error e ∨ ∃ a, x = .ok a ∧ f a = .error e := by
  cases x with
  | error e' => simp
  | ok a => simp

@[simp] theorem mapError_ok (a : α) (f : ε → ε') : (.ok a : Except ε α).mapError f = .ok a := rfl

@[simp] theorem mapError_error (e : ε) (f : ε → ε') :
    (.error e : Except ε α).mapError f = .error (f e) := rfl

theorem mapError_eq_ok_iff {x : Except ε α} {f : ε → ε'} {a : α} :
    x.mapError f = .ok a ↔ x = .ok a := by
  cases x with
  | error e => simp
  | ok b => simp

/-! ## The error of a failure -/

/-- The error of a computation, if it fails. -/
def failure : Except ε α → Option ε
  | .ok _ => none
  | .error e => some e

@[simp] theorem failure_ok (a : α) : failure (.ok a : Except ε α) = none := rfl

@[simp] theorem failure_error (e : ε) : failure (.error e : Except ε α) = some e := rfl

theorem failure_eq_some_iff {x : Except ε α} {e : ε} : failure x = some e ↔ x = .error e := by
  cases x with
  | error e' => simp
  | ok a => simp

/-- One computation after another, where the second fails in the same way whatever
it is handed. -/
theorem failure_bind {x : Except ε α} {f : α → Except ε β} {first second : Option ε}
    (hx : failure x = first) (hf : ∀ a, failure (f a) = second) :
    failure (x >>= f) = first.or second := by
  subst hx
  cases x with
  | error e => rfl
  | ok a => exact hf a

/-- A computation and then something that never fails. -/
theorem failure_bind_ok {x : Except ε α} {f : α → Except ε β} {first : Option ε}
    (hx : failure x = first) (hf : ∀ a, failure (f a) = none) : failure (x >>= f) = first := by
  rw [failure_bind hx hf, Option.or_none]

end ThreeAddress
