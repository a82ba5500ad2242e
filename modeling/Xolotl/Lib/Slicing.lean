import Mathlib

/-! Resumable transfers: each call moves a front part of what is pending, at most as much as
it is given room for. However the room is cut, enough calls move everything. -/

namespace Slicing

variable {σ β : Type*} {pending : σ → List β} {step : σ → Nat → σ} {P : σ → Prop}

/-- Each step keeps `P`, and with any room at all it moves something while anything is pending. -/
structure Advances (P : σ → Prop) (pending : σ → List β) (step : σ → Nat → σ) : Prop where
  keeps : ∀ s room, P s → P (step s room)
  shrinks : ∀ s room, P s → (pending (step s room)).length ≤ (pending s).length
  moves : ∀ s room, P s → 0 < room → pending s ≠ [] →
    (pending (step s room)).length < (pending s).length

def offers (rooms : List Nat) : Nat := (rooms.filter (0 < ·)).length

theorem Advances.run (h : Advances P pending step) {s : σ} (hs : P s) (rooms : List Nat) :
    P (rooms.foldl step s) := by
  induction rooms generalizing s with
  | nil => exact hs
  | cons room rooms ih => exact ih (h.keeps s room hs)

theorem Advances.exhausts (h : Advances P pending step) {s : σ} (hs : P s) {rooms : List Nat}
    (ho : (pending s).length ≤ offers rooms) : pending (rooms.foldl step s) = [] := by
  induction rooms generalizing s with
  | nil => exact List.length_eq_zero_iff.mp (Nat.le_zero.mp ho)
  | cons room rooms ih =>
    refine ih (h.keeps s room hs) ?_
    rcases Nat.eq_zero_or_pos room with rfl | hr
    · exact Nat.le_trans (h.shrinks s 0 hs) ho
    · have hc : offers (room :: rooms) = offers rooms + 1 := by
        simp [offers, hr]
      rcases eq_or_ne (pending s) [] with hnil | hne
      · have hle := h.shrinks s room hs
        rw [hnil] at hle
        exact Nat.le_trans hle (Nat.zero_le _)
      · have hlt := h.moves s room hs hr hne
        omega

end Slicing
