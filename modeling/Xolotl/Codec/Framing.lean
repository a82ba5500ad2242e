import Xolotl.Lib.Word
import Xolotl.Types.Event

/-! The wire format of value events: errors, byte offsets, identifiers, and the header
codec the framing relies on. -/

namespace Xolotl.Codec

open Xolotl.Types Word

def magic : List UInt8 := Text.bytes "xolotl.value"

def version : UInt64 := 1

def maxDataRecordBytes : Nat := u32Max

inductive ErrorKind
  | invalidCbor
  | invalidEnvelope
  | unsupportedVersion (version : UInt64)
  | invalidRecord
  | unknownEvent (id : UInt64)
  | unknownKind (id : UInt64)
  | unknownDType (id : UInt64)
  | unknownFrameKind (id : UInt64)
  | invalidInteger
  | dataRecordTooLarge (bytes : Nat)
  | truncated
  | trailingData
  | offsetOverflow
  | incompleteEvent
  | cancelled
  | closed
  | headerEncoding
  deriving DecidableEq

structure Error where
  offset : Nat
  kind : ErrorKind
  deriving DecidableEq

def advanceOffset (offset bytes : Nat) : Except ErrorKind Nat :=
  if u64Max < offset + bytes then .error .offsetOverflow else .ok (offset + bytes)

theorem advanceOffset_ok {offset bytes : Nat} (h : offset + bytes ≤ u64Max) :
    advanceOffset offset bytes = .ok (offset + bytes) := if_neg (Nat.not_lt.mpr h)

theorem advanceOffset_error {offset bytes : Nat} (h : ¬ offset + bytes ≤ u64Max) :
    advanceOffset offset bytes = .error .offsetOverflow := if_pos (Nat.lt_of_not_le h)

/-! ## Headers -/

inductive Header
  | positive (n : UInt64)
  | negative (n : UInt64)
  | bytes (len : Option Nat)
  | array (len : Option Nat)
  | break_
  | other
  deriving DecidableEq

def headerBytes (first : UInt8) : Nat :=
  match (first &&& 31).toNat with
  | 24 => 2
  | 25 => 3
  | 26 => 5
  | 27 => 9
  | _ => 1

def argumentBytes (n : Nat) : Nat :=
  if n < 24 then 1 else if n < 2 ^ 8 then 2 else if n < 2 ^ 16 then 3 else if n < 2 ^ 32 then 5
  else 9

namespace Header

/-- The headers that have an encoding: lengths are machine words. -/
def Encodable : Header → Prop
  | bytes (some len) | array (some len) => len ≤ u64Max
  | positive _ | negative _ | bytes none | array none | break_ => True
  | other => False

def size : Header → Nat
  | positive n | negative n => argumentBytes n.toNat
  | bytes (some len) | array (some len) => argumentBytes len
  | bytes none | array none | break_ | other => 1

end Header

/-- The assumption on the CBOR library: one header at a time, it writes the shortest form,
whose first byte tells the length, and reads it back. -/
structure HeaderCodec where
  push : Header → List UInt8
  pull : List UInt8 → Option Header
  length_push : ∀ h : Header, h.Encodable → (push h).length = h.size
  headerBytes_push : ∀ h : Header, h.Encodable → (push h).head?.map headerBytes = some h.size
  pull_push : ∀ h : Header, h.Encodable → pull (push h) = some h

/-! ## Identifiers -/

def kindId : Kind → UInt64
  | .document => 0
  | .taint => 1
  | .string => 2
  | .bytes => 3
  | .list => 4
  | .map => 5
  | .key => 6
  | .blob => 7
  | .tensor => 8
  | .shape => 9
  | .frame => 10
  | .streamError => 11
  | .inbound => 12
  | .fetched => 13
  | .protected_ => 14
  | .path => 15
  | .pathSegments => 16

def kindFromId (id : UInt64) : Except ErrorKind Kind :=
  match id.toNat with
  | 0 => .ok .document
  | 1 => .ok .taint
  | 2 => .ok .string
  | 3 => .ok .bytes
  | 4 => .ok .list
  | 5 => .ok .map
  | 6 => .ok .key
  | 7 => .ok .blob
  | 8 => .ok .tensor
  | 9 => .ok .shape
  | 10 => .ok .frame
  | 11 => .ok .streamError
  | 12 => .ok .inbound
  | 13 => .ok .fetched
  | 14 => .ok .protected_
  | 15 => .ok .path
  | 16 => .ok .pathSegments
  | _ => .error (.unknownKind id)

def dtypeId : DType → UInt64
  | .f16 => 0
  | .bf16 => 1
  | .f32 => 2
  | .f64 => 3
  | .i8 => 4
  | .i16 => 5
  | .i32 => 6
  | .i64 => 7
  | .u8 => 8
  | .bool => 9

def dtypeFromId (id : UInt64) : Except ErrorKind DType :=
  match id.toNat with
  | 0 => .ok .f16
  | 1 => .ok .bf16
  | 2 => .ok .f32
  | 3 => .ok .f64
  | 4 => .ok .i8
  | 5 => .ok .i16
  | 6 => .ok .i32
  | 7 => .ok .i64
  | 8 => .ok .u8
  | 9 => .ok .bool
  | _ => .error (.unknownDType id)

def frameKindId : MediaKind → UInt64
  | .audio => 0
  | .video => 1
  | .pose => 2
  | .sensor => 3

def frameKindFromId (id : UInt64) : Except ErrorKind MediaKind :=
  match id.toNat with
  | 0 => .ok .audio
  | 1 => .ok .video
  | 2 => .ok .pose
  | 3 => .ok .sensor
  | _ => .error (.unknownFrameKind id)

def recordArity (id : UInt64) : Except ErrorKind Nat :=
  match id.toNat with
  | 2 | 3 | 4 | 10 | 11 | 12 => .ok 1
  | 0 | 1 | 5 | 6 | 7 | 8 | 9 | 13 => .ok 2
  | _ => .error (.unknownEvent id)

/-! ## Signed integers -/

def i64Header (value : Int64) : Header :=
  if 0 ≤ value then .positive value.toUInt64 else .negative (~~~ value.toUInt64)

def i64TryFrom (value : UInt64) : Except ErrorKind Int64 :=
  if value.toNat < 2 ^ 63 then .ok value.toInt64 else .error .invalidInteger

theorem nonneg_iff (value : Int64) : 0 ≤ value ↔ value.toUInt64.toNat < 2 ^ 63 := by
  have hi : value.toInt = value.toBitVec.toInt := rfl
  have hn : value.toUInt64.toNat = value.toBitVec.toNat := rfl
  have hzero : (0 : Int64).toInt = 0 := rfl
  rw [Int64.le_iff_toInt_le, hi, BitVec.toInt_eq_toNat_cond]
  split <;> omega

theorem i64TryFrom_of_nonneg {value : Int64} (h : 0 ≤ value) :
    i64TryFrom value.toUInt64 = .ok value := if_pos ((nonneg_iff value).mp h)

theorem i64TryFrom_of_neg {value : Int64} (h : ¬ 0 ≤ value) :
    i64TryFrom (~~~ value.toUInt64) = .ok (~~~ value) := by
  have hge := mt (nonneg_iff value).mpr h
  have hn : (~~~ value.toUInt64).toNat = 2 ^ 64 - 1 - value.toUInt64.toNat := BitVec.toNat_not
  exact if_pos (by omega)

end Xolotl.Codec
