import Mathlib

/-! Numbers as a fixed count of bytes, most significant first. -/

namespace Word

def bigEndian : Nat → Nat → List UInt8
  | 0, _ => []
  | k + 1, n => UInt8.ofNat (n / 256 ^ k) :: bigEndian k n

def fromBigEndian (bytes : List UInt8) : Nat :=
  bytes.foldl (fun acc byte => acc * 256 + byte.toNat) 0

theorem length_bigEndian (k n : Nat) : (bigEndian k n).length = k := by
  induction k with
  | zero => rfl
  | succ k ih => rw [bigEndian, List.length_cons, ih]

theorem foldl_bigEndian (k n acc : Nat) :
    (bigEndian k n).foldl (fun acc byte => acc * 256 + byte.toNat) acc =
      acc * 256 ^ k + n % 256 ^ k := by
  induction k generalizing acc with
  | zero => simp [bigEndian, Nat.mod_one]
  | succ k ih =>
    rw [bigEndian, List.foldl_cons, ih, Nat.pow_succ, Nat.mod_mul, UInt8.toNat_ofNat']
    ring

theorem fromBigEndian_bigEndian {k n : Nat} (h : n < 256 ^ k) :
    fromBigEndian (bigEndian k n) = n := by
  rw [fromBigEndian, foldl_bigEndian, Nat.zero_mul, Nat.zero_add, Nat.mod_eq_of_lt h]

theorem bigEndian_inj {k m n : Nat} (hm : m < 256 ^ k) (hn : n < 256 ^ k)
    (h : bigEndian k m = bigEndian k n) : m = n := by
  rw [← fromBigEndian_bigEndian hm, h, fromBigEndian_bigEndian hn]

end Word
