import Xolotl.Types.Attenuation

/-! Grants, the source form of a capability: a selector, rights by method name, constraints and an
expiry. -/

namespace Xolotl.Types

/-- Names are sorted and distinct, so that looking one up is membership. -/
inductive GrantMethods
  | none
  | all
  | names (list : List Text) (sorted : list.Pairwise (· < ·))
  deriving DecidableEq

namespace GrantMethods

def isEmpty : GrantMethods → Bool
  | none => true
  | _ => false

def allows (methods : GrantMethods) (name : Text) : Bool :=
  match methods with
  | none => false
  | all => true
  | names list _ => list.contains name

def isSubsetOf (methods parent : GrantMethods) : Bool :=
  match methods, parent with
  | none, _ => true
  | _, all => true
  | all, _ => false
  | _, none => false
  | names child _, names parent _ => child.all parent.contains

theorem allows_mono {methods parent : GrantMethods} (h : methods.isSubsetOf parent = true)
    {name : Text} (ha : methods.allows name = true) : parent.allows name = true := by
  cases parent with
  | all => rfl
  | none =>
    cases methods with
    | none => cases ha
    | _ => cases h
  | names parent =>
    cases methods with
    | none => cases ha
    | all => cases h
    | names list => exact List.all_eq_true.mp h name (List.contains_iff_mem.mp ha)

end GrantMethods

abbrev RightFlags := UInt32

def RightFlags.contains (flags other : RightFlags) : Bool := flags &&& other == other

structure GrantRights where
  methods : GrantMethods
  flags : RightFlags
  deriving DecidableEq

namespace GrantRights

def isEmpty (rights : GrantRights) : Bool := rights.methods.isEmpty && rights.flags == 0

def isSubsetOf (rights parent : GrantRights) : Bool :=
  rights.methods.isSubsetOf parent.methods && RightFlags.contains parent.flags rights.flags

end GrantRights

structure ResourceSelector where
  pattern : Capability
  deriving DecidableEq

/-- A selector that names a method matches no call. -/
def ResourceSelector.matches (selector : ResourceSelector) (verb : Text) (target : Path) : Bool :=
  selector.pattern.method.isNone && selector.pattern.coversPath verb target

structure ConstraintSet where
  predicates : List Predicate
  deriving DecidableEq

def ConstraintSet.eval (constraints : ConstraintSet) (input : Value) (nowMillis : Int64) : Bool :=
  constraints.predicates.all fun predicate => predicate.eval input nowMillis

inductive Expiry
  | never
  | at_ (millis : Int64)
  deriving DecidableEq

def Expiry.isExpired (expires : Expiry) (nowMillis : Int64) : Bool :=
  match expires with
  | never => false
  | at_ millis => decide (millis < nowMillis)

structure Grant where
  id : Nat
  holder : Nat
  selector : ResourceSelector
  rights : GrantRights
  constraints : ConstraintSet
  expires : Expiry
  deriving DecidableEq

namespace Grant

def covers (grant : Grant) (verb : Text) (target : Path) (input : Value)
    (nowMillis : Int64) : Bool :=
  !grant.expires.isExpired nowMillis && grant.selector.matches verb target &&
    grant.selector.pattern.predicateHolds input nowMillis && grant.constraints.eval input nowMillis

def authorizes (grant : Grant) (verb : Text) (target : Path) (method : Text) (input : Value)
    (nowMillis : Int64) : Bool :=
  grant.covers verb target input nowMillis && grant.rights.methods.allows method

end Grant

/-! ## The order of predicates and expiries -/

def PredOp.rank : PredOp → Nat
  | eq => 0
  | ne => 1
  | le => 2
  | lt => 3
  | ge => 4
  | gt => 5

def Predicate.sortKey (predicate : Predicate) : Text ×ₗ Nat ×ₗ Text :=
  toLex (predicate.key, toLex (predicate.op.rank, predicate.value))

theorem Predicate.sortKey_injective : Function.Injective Predicate.sortKey := by
  rintro ⟨key, op, value⟩ ⟨key', op', value'⟩ h
  simp only [sortKey, EmbeddingLike.apply_eq_iff_eq, Prod.mk.injEq] at h
  obtain ⟨rfl, hop, rfl⟩ := h
  cases op <;> cases op' <;> first | rfl | cases hop

instance : LinearOrder Predicate := .lift' _ Predicate.sortKey_injective

end Xolotl.Types
