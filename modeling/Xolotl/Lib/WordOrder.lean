import Xolotl.Lib.Word

/-! Machine words as ordered keys, and addition that refuses to wrap. -/

instance linearOrderUInt8 : LinearOrder UInt8 where
  le_refl := UInt8.le_refl
  le_trans _ _ _ := UInt8.le_trans
  le_antisymm _ _ := UInt8.le_antisymm
  le_total := UInt8.le_total
  lt_iff_le_not_ge a b := by
    rw [UInt8.not_le]
    exact ⟨fun h => ⟨UInt8.le_of_lt h, h⟩, fun h => h.2⟩
  toDecidableLE := inferInstance
  toDecidableLT := inferInstance
  toDecidableEq := inferInstance

instance linearOrderUInt64 : LinearOrder UInt64 where
  le_refl := UInt64.le_refl
  le_trans _ _ _ := UInt64.le_trans
  le_antisymm _ _ := UInt64.le_antisymm
  le_total := UInt64.le_total
  lt_iff_le_not_ge a b := by
    rw [UInt64.not_le]
    exact ⟨fun h => ⟨UInt64.le_of_lt h, h⟩, fun h => h.2⟩
  toDecidableLE := inferInstance
  toDecidableLT := inferInstance
  toDecidableEq := inferInstance

namespace Word

def checkedAdd (a b : UInt64) : Option UInt64 :=
  if a.toNat + b.toNat ≤ u64Max then some (a + b) else none

theorem toNat_of_checkedAdd {a b c : UInt64} (h : checkedAdd a b = some c) :
    c.toNat = a.toNat + b.toNat := by
  unfold checkedAdd at h
  split at h
  next hle =>
    cases h
    rw [UInt64.toNat_add, Nat.mod_eq_of_lt]
    exact Nat.lt_of_le_of_lt hle (by decide)
  next => cases h

theorem le_of_checkedAdd {a b c : UInt64} (h : checkedAdd a b = some c) :
    a.toNat + b.toNat ≤ u64Max := by
  unfold checkedAdd at h
  split at h
  · assumption
  · cases h

end Word
