import Mathlib

/-!
# Pintos.Lib.Except

Computations in `Except` that return: rewriting rules for a computation that is known to
return, and inversion of one that has returned.
-/

namespace Pintos

universe u v

variable {ε : Type u} {α β : Type v} {a : α} {x : Except ε α}

@[simp] theorem ok_bind (a : α) (f : α → Except ε β) : (Except.ok a >>= f) = f a := rfl

@[simp] theorem pure_eq_ok (a : α) : (pure a : Except ε α) = .ok a := rfl

/-- The value of a function that may fail, with the error for its failure. -/
def require (e : ε) : Option α → Except ε α
  | some a => .ok a
  | none => .error e

theorem require_eq_ok {e : ε} {x : Option α} (h : require e x = .ok a) : x = some a := by
  cases x with
  | none => cases h
  | some b =>
    cases h
    rfl

/-- A computation that returns is a computation that returns after another one has. -/
theorem bind_eq_ok {f : α → Except ε β} {r : β} (h : x >>= f = .ok r) :
    ∃ a, x = .ok a ∧ f a = .ok r := by
  cases x with
  | error e => cases h
  | ok a => exact ⟨a, rfl, h⟩

theorem eq_ok_of_toOption (h : x.toOption = some a) : x = .ok a := by
  cases x with
  | error e => cases h
  | ok b =>
    cases h
    rfl

end Pintos
