import Mathlib

/-! Stamps drawn from one growing counter. Places hold stamps; a step keeps a stamp where it is,
drops it, or writes one above the counter. Then no stamp is ever held by two places, and a
stamp that no place holds any more never comes back. -/

namespace Fresh

variable {σ P E : Type*} [LinearOrder E] (stamp : σ → P → Option E) (counter : σ → E)

structure Draws (s t : σ) : Prop where
  mono : counter s ≤ counter t
  kept : ∀ p e, stamp t p = some e → stamp s p = some e ∨ counter s < e ∧ e ≤ counter t
  distinct : ∀ p q e, counter s < e → stamp t p = some e → stamp t q = some e → p = q

/-- Stamps lie below the counter and name their place. -/
structure Stamped (s : σ) : Prop where
  bounded : ∀ p e, stamp s p = some e → e ≤ counter s
  unique : ∀ p q e, stamp s p = some e → stamp s q = some e → p = q

def Spent (s : σ) (e : E) : Prop := e ≤ counter s ∧ ∀ p, stamp s p ≠ some e

variable {stamp counter} {s t : σ} {e : E} {p : P}

theorem Draws.refl (h : Stamped stamp counter s) : Draws stamp counter s s where
  mono := le_rfl
  kept _ _ hp := .inl hp
  distinct p _ e hlt hp _ := absurd (h.bounded p e hp) (not_le.mpr hlt)

theorem Stamped.step (h : Stamped stamp counter s) (hd : Draws stamp counter s t) :
    Stamped stamp counter t where
  bounded p e hp := by
    rcases hd.kept p e hp with hold | ⟨-, hle⟩
    · exact (h.bounded p e hold).trans hd.mono
    · exact hle
  unique p q e hp hq := by
    rcases hd.kept p e hp with hold | ⟨hf, -⟩
    · rcases hd.kept q e hq with hold' | ⟨hf, -⟩
      · exact h.unique p q e hold hold'
      · exact hd.distinct p q e hf hp hq
    · exact hd.distinct p q e hf hp hq

theorem Spent.step (h : Spent stamp counter s e) (hd : Draws stamp counter s t) :
    Spent stamp counter t e := by
  refine ⟨h.1.trans hd.mono, fun p hp => ?_⟩
  rcases hd.kept p e hp with hold | ⟨hf, -⟩
  · exact h.2 p hold
  · exact absurd h.1 (not_le.mpr hf)

end Fresh
