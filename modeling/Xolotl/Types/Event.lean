import Xolotl.Types.Value

/-! Value documents as sequences of events. -/

namespace Xolotl.Types

inductive Kind
  | document | taint | string | bytes | list | map | key | blob | tensor | shape | frame
  | streamError | inbound | fetched | protected_ | path | pathSegments
  deriving DecidableEq, Repr

inductive Atom
  | null
  | bool (b : Bool)
  | i64 (n : Int64)
  | f64Bits (bits : UInt64)
  | u64 (n : UInt64)
  | dtype (dtype : DType)
  | frameKind (kind : MediaKind)
  | author
  | model
  | streamDone
  deriving DecidableEq

inductive Event
  | begin_ (kind : Kind)
  | end_ (kind : Kind)
  | atom (atom : Atom)
  | data (bytes : List UInt8)
  deriving DecidableEq

end Xolotl.Types
