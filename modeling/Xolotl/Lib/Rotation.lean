import Mathlib

/-! Round-robin search: slots are visited from a cursor onwards, and the cursor
moves past the slot that was found. A slot that always stops the search is never
passed, so the cursor only comes closer to it. -/

namespace Xolotl.Rotation

def order (n cursor : Nat) : List Nat := (List.range n).map fun offset => (cursor + offset) % n

def Ahead (n cursor w d : Nat) : Prop := d < n ∧ (cursor + d) % n = w

variable {n cursor w d : Nat}

theorem exists_ahead (cursor : Nat) (hw : w < n) : ∃ d, Ahead n cursor w d := by
  have hn : 0 < n := Nat.zero_lt_of_lt hw
  refine ⟨(w + (n - cursor % n)) % n, Nat.mod_lt _ hn, ?_⟩
  have hlt := Nat.mod_lt cursor hn
  have hs : cursor % n + (w + (n - cursor % n)) = w + n := by omega
  calc (cursor + (w + (n - cursor % n)) % n) % n
      = (cursor % n + (w + (n - cursor % n))) % n := by simp only [Nat.add_mod_mod, Nat.mod_add_mod]
    _ = w := by rw [hs, Nat.add_mod_right, Nat.mod_eq_of_lt hw]

theorem exists_offset_of_find {p : Nat → Bool} {i : Nat}
    (h : (order n cursor).find? p = some i) (hw : Ahead n cursor w d) (hp : p w = true) :
    ∃ offset ≤ d, i = (cursor + offset) % n := by
  rw [order, List.find?_map, Option.map_eq_some_iff] at h
  obtain ⟨offset, hf, rfl⟩ := h
  refine ⟨offset, ?_, rfl⟩
  by_contra hlt
  rw [List.find?_range_eq_some] at hf
  obtain ⟨-, -, hb⟩ := hf
  have hd := hb d (by omega)
  rw [Function.comp_apply, hw.2, hp] at hd
  cases hd

theorem Ahead.next {offset : Nat} (h : Ahead n cursor w d) (ho : offset < d) :
    Ahead n (((cursor + offset) % n + 1) % n) w (d - (offset + 1)) := by
  obtain ⟨hd, hw⟩ := h
  refine ⟨by omega, ?_⟩
  have hs : cursor + offset + 1 + (d - (offset + 1)) = cursor + d := by omega
  rw [Nat.mod_add_mod, Nat.add_assoc, Nat.mod_add_mod, ← Nat.add_assoc, hs, hw]

end Xolotl.Rotation
