import Xolotl.Lib.Word

/-! Fixed-capacity, generational capability handles: the lifecycle of one slot
and the table of owners, resources and method bitmaps over the slots. -/

namespace Xolotl.Core

open Word

structure HandleKey where
  slot : Nat
  generation : Nat
  deriving DecidableEq, Repr

inductive AuthorityError
  | capacity | stale | owner | rights
  deriving DecidableEq, Repr

/-! ## Slots -/

inductive SlotState
  | vacant | active | released
  deriving DecidableEq, Repr

structure HandleSlot where
  generation : Nat := 0
  state : SlotState := .vacant
  parent : Option HandleKey := none
  children : Nat := 0
  deriving DecidableEq, Repr

/-- Storage work after a release, a revocation or a detached child. -/
inductive HandleSlotChange
  | unchanged
  | retained
  | reclaimed (parent : Option HandleKey)
  deriving DecidableEq, Repr

namespace HandleSlot

variable (s : HandleSlot)

def reusable : Bool := s.state == .vacant && s.generation < u64Max

def install (parent : Option HandleKey) : Except AuthorityError (HandleSlot × Nat) :=
  if !s.reusable then .error .capacity
  else if parent.any fun key => key.generation == 0 then .error .stale
  else .ok ({ s with generation := s.generation + 1, state := .active, parent },
    s.generation + 1)

variable (generation : Nat)

def isMatch : Bool :=
  s.state == .active && s.generation == generation

def retains : Bool :=
  s.state != .vacant && s.generation == generation

def attachChild : Except AuthorityError HandleSlot :=
  if !s.isMatch generation then .error .stale
  else if u64Max < s.children + 1 then .error .capacity
  else .ok { s with children := s.children + 1 }

def reclaim : HandleSlotChange × HandleSlot :=
  (.reclaimed s.parent, { s with state := .vacant, children := 0, parent := none })

def release : HandleSlotChange × HandleSlot :=
  if !s.isMatch generation then (.unchanged, s)
  else
    let s := { s with state := .released }
    if s.children = 0 then s.reclaim else (.retained, s)

def revoke : HandleSlotChange × HandleSlot :=
  if !s.retains generation then (.unchanged, s) else s.reclaim

def detachChild : HandleSlotChange × HandleSlot :=
  if !s.retains generation || s.children == 0 then (.unchanged, s)
  else
    let s := { s with children := s.children - 1 }
    if s.children = 0 ∧ s.state = .released then s.reclaim else (.retained, s)

def validateAncestors (lookup : HandleKey → Option HandleSlot) :
    Nat → Option HandleKey → Except AuthorityError Unit
  | _, none => .ok ()
  | 0, some _ => .error .stale
  | remaining + 1, some key =>
    match lookup key with
    | none => .error .stale
    | some ancestor =>
      if !ancestor.retains key.generation then .error .stale
      else validateAncestors lookup remaining ancestor.parent

def validate (generation capacity : Nat)
    (lookup : HandleKey → Option HandleSlot) : Except AuthorityError Unit :=
  if !s.isMatch generation then .error .stale
  else validateAncestors lookup capacity s.parent

end HandleSlot

/-! ## The table -/

structure Handle where
  owner : Nat := 0
  resource : Nat := 0
  methods : BitVec 64 := 0
  slot : HandleSlot := {}
  deriving DecidableEq, Repr

structure HandleTable where
  slots : List Handle
  deriving DecidableEq, Repr

namespace HandleTable

def vacant (n : Nat) : HandleTable := ⟨List.replicate n {}⟩

variable (t : HandleTable) (key : HandleKey)

def lookup : Option HandleSlot :=
  (t.slots[key.slot]?).map Handle.slot

def modifySlot (i : Nat) (s : HandleSlot) : HandleTable :=
  ⟨t.slots.modify i fun h => { h with slot := s }⟩

def installWithParent (owner resource : Nat) (methods : BitVec 64)
    (parent : Option HandleKey) : Except AuthorityError (HandleTable × HandleKey) := do
  let some index := t.slots.findIdx? fun h => h.slot.reusable
    | throw .capacity
  if u32Max < index then
    throw .capacity
  let some handle := t.slots[index]?
    | throw .capacity
  let (authority, generation) ← handle.slot.install parent
  let t ← match parent with
    | none => pure t
    | some parent =>
      match t.slots[parent.slot]? with
      | none => throw .stale
      | some h => do pure (t.modifySlot parent.slot (← h.slot.attachChild parent.generation))
  return (⟨t.slots.set index { owner, resource, methods, slot := authority }⟩,
    { slot := index, generation })

def install (owner resource : Nat) (methods : BitVec 64) :
    Except AuthorityError (HandleTable × HandleKey) :=
  t.installWithParent owner resource methods none

def localHandle (owner : Nat) : Except AuthorityError Handle :=
  match t.slots[key.slot]? with
  | none => .error .stale
  | some h =>
    if !h.slot.retains key.generation then .error .stale
    else if h.owner ≠ owner then .error .owner
    else .ok h

def get (owner : Nat) : Except AuthorityError Handle :=
  match t.slots[key.slot]? with
  | none => .error .stale
  | some h =>
    match h.slot.validate key.generation t.slots.length t.lookup with
    | .error e => .error e
    | .ok () => if h.owner ≠ owner then .error .owner else .ok h

def authorize (owner method : Nat) : Except AuthorityError Nat :=
  match t.get key owner with
  | .error e => .error e
  | .ok h =>
    if 64 ≤ method then .error .rights
    else if h.methods &&& (1#64 <<< method) = 0 then .error .rights
    else .ok h.resource

def derive (parent : HandleKey) (owner child : Nat) (methods : BitVec 64) :
    Except AuthorityError (HandleTable × HandleKey) :=
  match t.get parent owner with
  | .error e => .error e
  | .ok h =>
    if methods &&& ~~~h.methods ≠ 0 then .error .rights
    else t.installWithParent child h.resource methods (some parent)

/-- The reclaim loop. Each turn that continues has reclaimed one more slot, so
the number of slots bounds it. -/
def reclaimAncestors : Nat → HandleTable → HandleSlotChange → HandleTable
  | fuel + 1, t, .reclaimed (some parent) =>
    match t.slots[parent.slot]? with
    | none => t
    | some h =>
      let (change, slot) := h.slot.detachChild parent.generation
      reclaimAncestors fuel (t.modifySlot parent.slot slot) change
  | _, t, _ => t

def release (t : HandleTable) (key : HandleKey) (owner : Nat) : Except AuthorityError HandleTable :=
  match t.localHandle key owner with
  | .error e => .error e
  | .ok h =>
    match h.slot.release key.generation with
    | (.unchanged, _) => .error .stale
    | (change, slot) => .ok (reclaimAncestors t.slots.length (t.modifySlot key.slot slot) change)

def revoke (t : HandleTable) (key : HandleKey) (owner : Nat) : Except AuthorityError HandleTable :=
  match t.localHandle key owner with
  | .error e => .error e
  | .ok h =>
    let (change, slot) := h.slot.revoke key.generation
    .ok (reclaimAncestors t.slots.length (t.modifySlot key.slot slot) change)

end HandleTable

end Xolotl.Core
