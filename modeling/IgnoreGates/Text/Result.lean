import Mathlib.Logic.Basic

/-!
# Results

What the results of the steps of a parser are when the result of the whole is known.
-/

namespace Except

variable {ε ε' α β : Type}

theorem of_map_eq_ok {f : α → β} {x : Except ε α} {b : β} (h : x.map f = .ok b) :
  ∃ a, x = .ok a ∧ f a = b
  := by
  cases x with
  | error e => cases h
  | ok a => exact ⟨a, rfl, Except.ok.inj h⟩

theorem of_mapError_eq_ok {f : ε → ε'} {x : Except ε α} {a : α} (h : x.mapError f = .ok a) :
  x = .ok a
  := by
  cases x with
  | error e => cases h
  | ok a' => exact congrArg Except.ok (Except.ok.inj h)

theorem of_bind_eq_ok {f : α → Except ε β} {x : Except ε α} {b : β} (h : x.bind f = .ok b) :
  ∃ a, x = .ok a ∧ f a = .ok b
  := by
  cases x with
  | error e => cases h
  | ok a => exact ⟨a, rfl, h⟩

/-- An error that neither step has is not an error of the two. -/
theorem bind_ne_error {f : α → Except ε β} {x : Except ε α} {e : ε} (hx : x ≠ .error e)
    (hf : ∀ a, x = .ok a → f a ≠ .error e) :
  x.bind f ≠ .error e
  := by
  cases x with
  | error e' => exact fun h => hx (congrArg Except.error (Except.error.inj h))
  | ok a => exact hf a rfl

end Except
