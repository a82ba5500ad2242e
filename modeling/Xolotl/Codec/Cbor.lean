import Xolotl.Codec.Framing
import Xolotl.Lib.BigEndian

/-! The standard encoding of CBOR headers: a major type and an argument in its shortest form.
It meets the assumption of the framing. -/

namespace Xolotl.Codec.Cbor

open Word

/-! ## Headers -/

def first (major info : Nat) : UInt8 := UInt8.ofNat (major * 32 + info)

def item (n : Nat) : Nat × List UInt8 :=
  if n < 24 then (n, [])
  else if n < 2 ^ 8 then (24, bigEndian 1 n)
  else if n < 2 ^ 16 then (25, bigEndian 2 n)
  else if n < 2 ^ 32 then (26, bigEndian 4 n)
  else (27, bigEndian 8 n)

def argument (info : Nat) (rest : List UInt8) : Nat :=
  if info < 24 then info else fromBigEndian rest

def pushItem (major n : Nat) : List UInt8 := first major (item n).1 :: (item n).2

def push : Header → List UInt8
  | .positive n => pushItem 0 n.toNat
  | .negative n => pushItem 1 n.toNat
  | .bytes (some len) => pushItem 2 len
  | .bytes none => [first 2 31]
  | .array (some len) => pushItem 4 len
  | .array none => [first 4 31]
  | .break_ => [first 7 31]
  | .other => []

def header (major info : Nat) (rest : List UInt8) : Header :=
  match major with
  | 0 => .positive (UInt64.ofNat (argument info rest))
  | 1 => .negative (UInt64.ofNat (argument info rest))
  | 2 => .bytes (if info = 31 then none else some (argument info rest))
  | 4 => .array (if info = 31 then none else some (argument info rest))
  | 7 => if info = 31 then .break_ else .other
  | _ => .other

/-- Information bits that no header of the kind has: 28 to 30 are reserved, and numbers and tags
are never of indefinite length. -/
def invalid (major info : Nat) : Bool :=
  (28 ≤ info && info ≤ 30) || (info == 31 && (major == 0 || major == 1 || major == 6))

def pull : List UInt8 → Option Header
  | [] => none
  | byte :: rest =>
    let major := byte.toNat / 32
    let info := byte.toNat % 32
    if invalid major info then none else some (header major info rest)

def infoBytes (info : Nat) : Nat :=
  match info with
  | 24 => 2
  | 25 => 3
  | 26 => 5
  | 27 => 9
  | _ => 1

variable {major info n : Nat}

theorem toNat_first (hm : major < 8) (hi : info < 32) :
    (first major info).toNat = major * 32 + info := by
  rw [first, UInt8.toNat_ofNat']
  omega

theorem headerBytes_first (hm : major < 8) (hi : info < 32) :
    headerBytes (first major info) = infoBytes info := by
  have hma : (first major info &&& 31).toNat = info := by
    rw [UInt8.toNat_and, toNat_first hm hi]
    have hmo := Nat.and_two_pow_sub_one_eq_mod (major * 32 + info) 5
    have h31 : (31 : UInt8).toNat = 2 ^ 5 - 1 := rfl
    rw [h31]
    omega
  rw [headerBytes, hma]
  rfl

theorem pull_first (hm : major < 8) (hi : info < 28) (rest : List UInt8) :
    pull (first major info :: rest) = some (header major info rest) := by
  have hd : (major * 32 + info) / 32 = major := by omega
  have hmo : (major * 32 + info) % 32 = info := by omega
  have hv : invalid major info = false := by
    simp only [invalid, Bool.or_eq_false_iff, Bool.and_eq_false_iff, decide_eq_false_iff_not,
      beq_eq_false_iff_ne]
    omega
  simp only [pull, toNat_first hm (Nat.lt_of_lt_of_le hi (by decide)), hd, hmo, hv]
  rfl

/-- What an item is: its information bits give its length, and its argument is read back. -/
structure ItemSpec (n info : Nat) (rest : List UInt8) : Prop where
  info_lt : info < 28
  size : rest.length + 1 = argumentBytes n
  width : infoBytes info = argumentBytes n
  argument_eq : argument info rest = n

theorem item_spec (h : n ≤ Word.u64Max) : ItemSpec n (item n).1 (item n).2 := by
  unfold item
  split
  next hn =>
    have hs : argumentBytes n = 1 := if_pos hn
    refine ⟨by omega, hs.symm, ?_, if_pos hn⟩
    unfold infoBytes
    split <;> omega
  next hn =>
    split
    next h8 =>
      have hs : argumentBytes n = 2 := by rw [argumentBytes, if_neg hn, if_pos h8]
      exact ⟨of_decide_eq_true rfl, hs.symm, hs.symm, fromBigEndian_bigEndian h8⟩
    next h8 =>
      split
      next h16 =>
        have hs : argumentBytes n = 3 := by rw [argumentBytes, if_neg hn, if_neg h8, if_pos h16]
        exact ⟨of_decide_eq_true rfl, hs.symm, hs.symm, fromBigEndian_bigEndian h16⟩
      next h16 =>
        split
        next h32 =>
          have hs : argumentBytes n = 5 := by
            rw [argumentBytes, if_neg hn, if_neg h8, if_neg h16, if_pos h32]
          exact ⟨of_decide_eq_true rfl, hs.symm, hs.symm, fromBigEndian_bigEndian h32⟩
        next h32 =>
          have hs : argumentBytes n = 9 := by
            rw [argumentBytes, if_neg hn, if_neg h8, if_neg h16, if_neg h32]
          have h64 : n < 256 ^ 8 := by
            unfold Word.u64Max at h
            omega
          exact ⟨of_decide_eq_true rfl, hs.symm, hs.symm, fromBigEndian_bigEndian h64⟩

theorem pushItem_spec (hm : major < 8) (hn : n ≤ Word.u64Max) :
    (pushItem major n).length = argumentBytes n ∧
    (pushItem major n).head?.map headerBytes = some (argumentBytes n) ∧
    ∃ info rest, info < 28 ∧ argument info rest = n ∧
      pull (pushItem major n) = some (header major info rest) := by
  have hs := item_spec hn
  have hi := hs.info_lt
  refine ⟨hs.size, ?_, (item n).1, (item n).2, hi, hs.argument_eq, ?_⟩
  · rw [pushItem, List.head?_cons, Option.map_some, headerBytes_first hm (by omega), hs.width]
  · exact pull_first hm hi _

theorem toNat_le_u64Max (n : UInt64) : n.toNat ≤ Word.u64Max := Nat.le_of_lt_succ n.toNat_lt

def codec : HeaderCodec where
  push := push
  pull := pull
  length_push h he := by
    match h with
    | .positive n => exact (pushItem_spec (by decide) (toNat_le_u64Max n)).1
    | .negative n => exact (pushItem_spec (by decide) (toNat_le_u64Max n)).1
    | .bytes (some len) | .array (some len) => exact (pushItem_spec (by decide) he).1
    | .bytes none | .array none | .break_ => rfl
  headerBytes_push h he := by
    match h with
    | .positive n => exact (pushItem_spec (by decide) (toNat_le_u64Max n)).2.1
    | .negative n => exact (pushItem_spec (by decide) (toNat_le_u64Max n)).2.1
    | .bytes (some len) | .array (some len) => exact (pushItem_spec (by decide) he).2.1
    | .bytes none | .array none | .break_ => rfl
  pull_push h he := by
    match h with
    | .positive n =>
      obtain ⟨-, -, info, rest, -, harg, hpull⟩ :=
        pushItem_spec (show 0 < 8 by decide) (toNat_le_u64Max n)
      rw [push, hpull, header, harg, UInt64.ofNat_toNat]
    | .negative n =>
      obtain ⟨-, -, info, rest, -, harg, hpull⟩ :=
        pushItem_spec (show 1 < 8 by decide) (toNat_le_u64Max n)
      rw [push, hpull, header, harg, UInt64.ofNat_toNat]
    | .bytes (some len) =>
      obtain ⟨-, -, info, rest, hinfo, harg, hpull⟩ := pushItem_spec (show 2 < 8 by decide) he
      rw [push, hpull, header, if_neg (by omega), harg]
    | .array (some len) =>
      obtain ⟨-, -, info, rest, hinfo, harg, hpull⟩ := pushItem_spec (show 4 < 8 by decide) he
      rw [push, hpull, header, if_neg (by omega), harg]
    | .bytes none | .array none | .break_ => rfl

end Xolotl.Codec.Cbor
