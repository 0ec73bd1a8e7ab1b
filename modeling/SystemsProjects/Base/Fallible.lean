/-
SystemsProjects.Base.Fallible — computations that return a result or stop
with a fault.

A bind hands on a result and passes a fault through; a computation that
returned something did so in each of its parts (`bind_eq_ok`), which takes
a `do` block apart without unfolding it.

Nothing here names the programs of this repository.
-/
import Mathlib.Init

namespace SystemsProjects.Base

section

variable {ε α β : Type}

@[simp] theorem pure_eq_ok (a : α) : (pure a : Except ε α) = .ok a := rfl

@[simp] theorem ok_bind (a : α) (f : α → Except ε β) : (Except.ok a >>= f) = f a := rfl

@[simp] theorem error_bind (e : ε) (f : α → Except ε β) : (Except.error e >>= f) = .error e := rfl

/-- The parts of a computation that returned. -/
theorem bind_eq_ok {x : Except ε α} {f : α → Except ε β} {b : β} (h : (x >>= f) = .ok b) :
    ∃ a, x = .ok a ∧ f a = .ok b := by
  cases x with
  | error e => cases h
  | ok a => exact ⟨a, rfl, h⟩

end

end SystemsProjects.Base
