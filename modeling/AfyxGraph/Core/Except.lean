import Mathlib.Init

/-! # Steps that can fail -/

namespace AfyxGraph.Core

universe u v

variable {ε : Type u} {α β : Type v} {e : Except ε α}

/-- A chain of steps succeeds step by step. -/
theorem ok_of_bind {f : α → Except ε β} {b : β} (h : e >>= f = .ok b) :
    ∃ a, e = .ok a ∧ f a = .ok b := by
  cases e with
  | error message => cases h
  | ok a => exact ⟨a, rfl, h⟩

end AfyxGraph.Core
