import Mathlib

/-! Computations that may fail, taken apart by their success or their error. -/

namespace Fallible

variable {ε α β : Type} {x : Except ε α}

theorem bind_ok {f : α → Except ε β} {b : β} : x >>= f = .ok b ↔ ∃ a, x = .ok a ∧ f a = .ok b := by
  cases x with
  | error e | ok a => simp [bind, Except.bind]

variable {f : α → β} {e : ε}

theorem map_eq_ok {b : β} : x.map f = .ok b ↔ ∃ a, x = .ok a ∧ f a = b := by
  cases x <;> simp [Except.map]

theorem map_eq_error : x.map f = .error e ↔ x = .error e := by
  cases x <;> simp [Except.map]

theorem mapError_ok {ε' : Type} {f : ε → ε'} {a : α} : x.mapError f = .ok a ↔ x = .ok a := by
  cases x <;> simp [Except.mapError]

def check (condition : Prop) [Decidable condition] (e : ε) : Except ε Unit :=
  if condition then .ok () else .error e

def ofOption (x : Option α) (e : ε) : Except ε α :=
  match x with
  | none => .error e
  | some a => .ok a

@[simp] theorem check_ok {condition : Prop} [Decidable condition] {u : Unit} :
    check condition e = .ok u ↔ condition := by
  unfold check
  split <;> simp [*]

@[simp] theorem ofOption_ok {x : Option α} {a : α} : ofOption x e = .ok a ↔ x = some a := by
  cases x <;> simp [ofOption]

end Fallible
