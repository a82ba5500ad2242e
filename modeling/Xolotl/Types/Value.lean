import Xolotl.Lib.Float64

/-! Generic data values as the op gate reads them. -/

namespace Xolotl.Types

structure BlobRef where
  hash : Text
  size : UInt64
  mime : Option Text
  deriving DecidableEq

inductive DType
  | f16 | bf16 | f32 | f64 | i8 | i16 | i32 | i64 | u8 | bool
  deriving DecidableEq

structure TensorRef where
  blob : BlobRef
  dtype : DType
  shape : List UInt64
  deriving DecidableEq

inductive MediaKind
  | audio | video | pose | sensor
  deriving DecidableEq

structure FrameRef where
  blob : BlobRef
  tsNanos : Int64
  kind : MediaKind
  deriving DecidableEq

inductive StreamMarker
  | done
  | error (message : Text)
  deriving DecidableEq

inductive Value
  | null
  | bool (b : Bool)
  | int (n : Int64)
  | float (x : F64)
  | str (s : Text)
  | bytes (b : List UInt8)
  | list (items : List Value)
  | map (members : List (Text × Value))
  | blob (b : BlobRef)
  | tensor (t : TensorRef)
  | frame (f : FrameRef)
  | streamEnd (m : StreamMarker)

def Value.get (key : Text) : Value → Option Value
  | .map members => (members.find? fun m => m.1 == key).map Prod.snd
  | _ => none

/-! ## Equality -/

namespace Value

mutual

def same : Value → Value → Bool
  | .null, .null => true
  | .bool a, .bool b => a == b
  | .int a, .int b => a == b
  | .float a, .float b => a == b
  | .str a, .str b => a == b
  | .bytes a, .bytes b => a == b
  | .list a, .list b => sameItems a b
  | .map a, .map b => sameMembers a b
  | .blob a, .blob b => a == b
  | .tensor a, .tensor b => a == b
  | .frame a, .frame b => a == b
  | .streamEnd a, .streamEnd b => a == b
  | _, _ => false

def sameItems : List Value → List Value → Bool
  | [], [] => true
  | a :: as, b :: bs => same a b && sameItems as bs
  | _, _ => false

def sameMembers : List (Text × Value) → List (Text × Value) → Bool
  | [], [] => true
  | (k, a) :: as, (l, b) :: bs => k == l && same a b && sameMembers as bs
  | _, _ => false

end

mutual

theorem same_refl : (a : Value) → same a a = true
  | .null => by simp [same]
  | .bool _ => by simp [same]
  | .int _ => by simp [same]
  | .float _ => by simp [same]
  | .str _ => by simp [same]
  | .bytes _ => by simp [same]
  | .list items => by simp [same, sameItems_refl items]
  | .map members => by simp [same, sameMembers_refl members]
  | .blob _ => by simp [same]
  | .tensor _ => by simp [same]
  | .frame _ => by simp [same]
  | .streamEnd _ => by simp [same]

theorem sameItems_refl : (as : List Value) → sameItems as as = true
  | [] => by simp [sameItems]
  | a :: as => by simp [sameItems, same_refl a, sameItems_refl as]

theorem sameMembers_refl : (as : List (Text × Value)) → sameMembers as as = true
  | [] => by simp [sameMembers]
  | (k, a) :: as => by simp [sameMembers, same_refl a, sameMembers_refl as]

end

mutual

theorem eq_of_same : (a b : Value) → same a b = true → a = b
  | .list as, b => by
    cases b <;> simp only [same, Bool.false_eq_true, false_implies]
    intro h
    rw [eq_of_sameItems as _ h]
  | .map as, b => by
    cases b <;> simp only [same, Bool.false_eq_true, false_implies]
    intro h
    rw [eq_of_sameMembers as _ h]
  | .null, b | .bool _, b | .int _, b | .float _, b | .str _, b | .bytes _, b | .blob _, b
  | .tensor _, b | .frame _, b | .streamEnd _, b => by
    cases b <;> simp [same]

theorem eq_of_sameItems : (as bs : List Value) → sameItems as bs = true → as = bs
  | [], [], _ => rfl
  | a :: as, b :: bs, h => by
    simp only [sameItems, Bool.and_eq_true] at h
    rw [eq_of_same a b h.1, eq_of_sameItems as bs h.2]

theorem eq_of_sameMembers : (as bs : List (Text × Value)) → sameMembers as bs = true → as = bs
  | [], [], _ => rfl
  | (k, a) :: as, (l, b) :: bs, h => by
    simp only [sameMembers, Bool.and_eq_true, beq_iff_eq] at h
    rw [h.1.1, eq_of_same a b h.1.2, eq_of_sameMembers as bs h.2]

end

instance : DecidableEq Value := fun a b =>
  decidable_of_iff (same a b = true) ⟨eq_of_same a b, fun h => h ▸ same_refl a⟩

end Value

end Xolotl.Types
