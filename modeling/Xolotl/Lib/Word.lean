import Mathlib

/-! Fixed-width unsigned integers: their largest values, and facts about single bytes. -/

namespace Word

def u32Max : Nat := 2 ^ 32 - 1

def u64Max : Nat := 2 ^ 64 - 1

theorem forall_byte {P : UInt8 → Prop} [DecidablePred P]
    (h : (List.range 256).all (fun n => P (UInt8.ofNat n)) = true) (byte : UInt8) : P byte := by
  have hb := List.all_eq_true.mp h byte.toNat (List.mem_range.mpr byte.toNat_lt)
  rw [UInt8.ofNat_toNat] at hb
  exact of_decide_eq_true hb

end Word
