import Mathlib.Tactic

namespace RecordStore.Outcome

/-- The ways an execution can stop before its end. -/
inductive Fault where
  /-- An `assert` does not hold. -/
  | assertFailed
  /-- `exit(1)` after an error message. -/
  | exit
  /-- `directory_buffer[dirNo]` lies past the end of the vector. -/
  | dirIndex (dirNo : Nat)
  /-- An access outside the block or array it is made on. -/
  | memory
  /-- A loop did not end within the given number of rounds. -/
  | outOfFuel
  deriving DecidableEq, Repr

variable {α β : Type}

@[simp] theorem ok_bind (a : α) (f : α → Except Fault β) : (Except.ok a >>= f) = f a := rfl

@[simp] theorem error_bind (e : Fault) (f : α → Except Fault β) :
    ((Except.error e : Except Fault α) >>= f) = .error e := rfl

theorem bind_eq_ok {x : Except Fault α} {f : α → Except Fault β} {b : β} :
    (x >>= f) = .ok b ↔ ∃ a, x = .ok a ∧ f a = .ok b := by
  cases x <;> simp

theorem map_eq_ok {x : Except Fault α} {f : α → β} {b : β} :
    x.map f = .ok b ↔ ∃ a, x = .ok a ∧ f a = b := by
  cases x <;> simp [Except.map]

/-- Two executions agree: they stop with the same fault, or both end with results that
are related. -/
def Agree (R : α → β → Prop) : Except Fault α → Except Fault β → Prop
  | .ok a, .ok b => R a b
  | .error e, .error e' => e = e'
  | _, _ => False

theorem Agree.bind {γ δ : Type} {R : α → β → Prop} {Q : γ → δ → Prop} {x : Except Fault α}
    {y : Except Fault β} {f : α → Except Fault γ} {g : β → Except Fault δ} (h : Agree R x y)
    (hf : ∀ a b, x = .ok a → y = .ok b → R a b → Agree Q (f a) (g b)) :
    Agree Q (x >>= f) (y >>= g) := by
  cases x with
  | ok a =>
    cases y with
    | ok b => exact hf a b rfl rfl h
    | error e => exact h.elim
  | error e =>
    cases y with
    | ok b => exact h.elim
    | error e' => exact h

theorem Agree.of_ok_right {R : α → β → Prop} {x : Except Fault α} {b : β} (h : Agree R x (.ok b)) :
    ∃ a, x = .ok a ∧ R a b := by
  cases x with
  | ok a => exact ⟨a, rfl, h⟩
  | error e => exact h.elim

theorem Agree.of_ok_left {R : α → β → Prop} {y : Except Fault β} {a : α} (h : Agree R (.ok a) y) :
    ∃ b, y = .ok b ∧ R a b := by
  cases y with
  | ok b => exact ⟨b, rfl, h⟩
  | error e => exact h.elim

theorem Agree.of_error_right {R : α → β → Prop} {x : Except Fault α} {e : Fault}
    (h : Agree R x (.error e)) : x = .error e := by
  cases x with
  | ok a => exact h.elim
  | error e' => exact congrArg _ h

theorem Agree.map {γ δ : Type} {R : α → β → Prop} {Q : γ → δ → Prop} {x : Except Fault α}
    {y : Except Fault β} {f : α → γ} {g : β → δ} (h : Agree R x y) (hf : ∀ a b, R a b → Q (f a) (g b)) :
    Agree Q (x.map f) (y.map g) := by
  cases x <;> cases y <;> first | exact h.elim | exact h | exact hf _ _ h

theorem Agree.eq {x y : Except Fault α} (h : Agree Eq x y) : x = y := by
  cases x <;> cases y <;> first | exact h.elim | exact congrArg _ h

end RecordStore.Outcome
