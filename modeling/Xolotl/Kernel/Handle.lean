import Xolotl.Core.Authority
import Xolotl.Lib.DenseIndex

/-! The kernel's handle table: a generational slotmap of dispatch payloads over the
authority of each slot, with a free list and, per owner, a dense index of the
occupied slots and retained ancestors. -/

namespace Xolotl.Kernel

open Word
open Xolotl.Core (HandleSlot HandleKey HandleSlotChange AuthorityError)

/-! ## Rights and handles -/

structure HandleId where
  index : Nat
  generation : Nat
  deriving DecidableEq, Repr

inductive DeriveKind
  | clone | transfer | spawnWith | delegate
  deriving DecidableEq, Repr

def DeriveKind.requiredFlag : DeriveKind → BitVec 32
  | .clone => 1
  | .transfer => 2
  | .spawnWith => 4
  | .delegate => 8

structure Rights where
  methods : BitVec 64
  flags : BitVec 32
  deriving DecidableEq, Repr

def Rights.isSubsetOf (rights parent : Rights) : Bool :=
  parent.methods &&& rights.methods == rights.methods &&
    parent.flags &&& rights.flags == rights.flags

def Rights.allowsDerive (rights : Rights) (kind : DeriveKind) : Bool :=
  rights.flags &&& kind.requiredFlag == kind.requiredFlag

/-- A compiled capability. The payload is what the table only carries along: the
acting identity, the resource, the plan, the policy and the bound path. -/
structure Handle (P : Type) where
  id : HandleId
  process : Nat
  rights : Rights
  payload : P
  deriving DecidableEq, Repr

structure Slot (P : Type) where
  authority : HandleSlot := {}
  owner : Nat := 0
  ownerPosition : Nat := 0
  handle : Option (Handle P) := none
  deriving DecidableEq, Repr

/-! ## The index of one owner -/

inductive OwnerSlots
  | one (index : Nat)
  | many (indices : List Nat)
  deriving DecidableEq, Repr

namespace OwnerSlots

def toList : OwnerSlots → List Nat
  | .one index => [index]
  | .many indices => indices

def len : OwnerSlots → Nat
  | .one _ => 1
  | .many indices => indices.length

def first : OwnerSlots → Nat
  | .one index => index
  | .many indices => indices.headD 0

def atPosition : OwnerSlots → Nat → Option Nat
  | .one index, position => if position = 0 then some index else none
  | .many indices, position => indices[position]?

/-- Remove a position; also the index that moved with its new position, and whether
nothing is left. -/
def remove : OwnerSlots → Nat → OwnerSlots × Option (Nat × Nat) × Bool
  | .one index, _ => (.one index, none, true)
  | .many indices, position =>
    match DenseIndex.swapRemove indices position with
    | [single] => (.one single, some (single, 0), false)
    | rest => (.many rest, rest[position]?.map fun moved => (moved, position), rest.isEmpty)

def push : OwnerSlots → Nat → OwnerSlots
  | .one index, i => .many [index, i]
  | .many indices, i => .many (indices ++ [i])

end OwnerSlots

/-! ## The table -/

structure Slots (P : Type) where
  slots : List (Slot P) := []
  free : List Nat := []
  byOwner : Nat → Option OwnerSlots := fun _ => none
  slotLimit : Option Nat := none

structure Reserve where
  slots : Bool := true
  owners : Bool := true
  indices : Bool := true
  deriving DecidableEq, Repr

namespace Slots

variable {P : Type} (t : Slots P)

def slotAt (i : Nat) : Slot P := (t.slots[i]?).getD {}

def setSlot (i : Nat) (slot : Slot P) : Slots P := { t with slots := t.slots.set i slot }

def setAuthority (i : Nat) (authority : HandleSlot) : Slots P :=
  t.setSlot i { t.slotAt i with authority }

def nextIndex : Except AuthorityError Nat :=
  match t.free with
  | index :: _ => .ok index
  | [] =>
    if t.slotLimit.any fun limit => decide (limit ≤ t.slots.length) then .error .capacity
    else if u32Max < t.slots.length then .error .capacity
    else .ok t.slots.length

def nextPosition (reserve : Reserve) (owner : Nat) : Except AuthorityError Nat :=
  let position := ((t.byOwner owner).map OwnerSlots.len).getD 0
  let granted := if (t.byOwner owner).isNone then reserve.owners else reserve.indices
  if !granted then .error .capacity
  else if u32Max < position then .error .capacity
  else .ok position

def place (index position : Nat) (authority : HandleSlot) (handle : Handle P) : Slots P :=
  let slot :=
    { authority, owner := handle.process, ownerPosition := position, handle := some handle }
  { t with
    byOwner := Function.update t.byOwner handle.process
      (some (((t.byOwner handle.process).map fun s => s.push index).getD (.one index)))
    free := t.free.tail
    slots := if t.free.isEmpty then t.slots ++ [slot] else t.slots.set index slot }

/-- Install a handle; a failure keeps the table as the statements before it left it. -/
def insertWithParent (reserve : Reserve) (pending : Handle P) (parent : Option HandleKey)
    (t : Slots P) : Except AuthorityError HandleId × Slots P :=
  match t.nextIndex with
  | .error e => (.error e, t)
  | .ok index =>
    let vacant := if t.free.isEmpty then {} else (t.slotAt index).authority
    match vacant.install parent with
    | .error e => (.error e, t)
    | .ok (authority, generation) =>
      if t.free.isEmpty && !reserve.slots then (.error .capacity, t)
      else
        match t.nextPosition reserve pending.process with
        | .error e => (.error e, t)
        | .ok position =>
          let id := { index, generation }
          match parent with
          | none => (.ok id, t.place index position authority { pending with id })
          | some parent =>
            match (t.slotAt parent.slot).authority.attachChild parent.generation with
            | .error e => (.error e, t)
            | .ok attached =>
              (.ok id, (t.setAuthority parent.slot attached).place index position authority
                { pending with id })

def lookup (key : HandleKey) : Option HandleSlot :=
  (t.slots[key.slot]?).map Slot.authority

def get (id : HandleId) : Option (Handle P) :=
  match t.slots[id.index]? with
  | none => none
  | some slot =>
    match slot.authority.validate id.generation t.slots.length t.lookup with
    | .error _ => none
    | .ok () => slot.handle

def reposition : Option (Nat × Nat) → Slots P
  | none => t
  | some (moved, position) => t.setSlot moved { t.slotAt moved with ownerPosition := position }

def removeOwnerIndex (index : Nat) : Slots P :=
  let slot := t.slotAt index
  match t.byOwner slot.owner with
  | none => t
  | some indices =>
    let (rest, moved, empty) := indices.remove slot.ownerPosition
    let t := t.reposition moved
    { t with byOwner := Function.update t.byOwner slot.owner (if empty then none else some rest) }

/-- Take a reclaimed slot out of its owner's index and make it available again, unless
its generations are exhausted. -/
def vacate (index : Nat) : Slots P :=
  let reusable := (t.slotAt index).authority.reusable
  let t := t.removeOwnerIndex index
  if reusable then { t with free := index :: t.free } else t

end Slots

/-! ## Transactions -/

/-- A table under its lock, with the payloads to drop after unlocking. -/
structure HandleWrite (P : Type) where
  table : Slots P
  retired : List (Handle P) := []

namespace HandleWrite

variable {P : Type}

def insertWithParent (reserve : Reserve) (handle : Handle P) (parent : Option HandleKey)
    (w : HandleWrite P) : Except AuthorityError HandleId × HandleWrite P :=
  match w.table.insertWithParent reserve handle parent with
  | (.ok id, table) => (.ok id, { w with table })
  | (.error e, table) => (.error e, { table, retired := w.retired ++ [handle] })

def insert (reserve : Reserve) (handle : Handle P) (w : HandleWrite P) :
    Except AuthorityError HandleId × HandleWrite P :=
  w.insertWithParent reserve handle none

def derive (reserve : Reserve) (parent : HandleId) (rights : Rights) (kind : DeriveKind)
    (owner : Nat) (w : HandleWrite P) : Except AuthorityError HandleId × HandleWrite P :=
  match w.table.get parent with
  | none => (.error .stale, w)
  | some source =>
    if !rights.isSubsetOf source.rights || !source.rights.allowsDerive kind then (.error .rights, w)
    else w.insertWithParent reserve { source with process := owner, rights }
      (some ⟨parent.index, parent.generation⟩)

variable (w : HandleWrite P) (index : Nat)

def retire (authority : HandleSlot) : HandleWrite P where
  table := w.table.setSlot index { w.table.slotAt index with authority, handle := none }
  retired := w.retired ++ (w.table.slotAt index).handle.toList

/-- The reclaim loop. Each turn that continues has reclaimed one more slot, so the
number of slots bounds it. -/
def reclaimAncestors : Nat → Nat → HandleSlotChange → HandleWrite P → HandleWrite P
  | fuel + 1, index, .reclaimed parent, w =>
    let w := w.retire index (w.table.slotAt index).authority
    let table := w.table.vacate index
    match parent with
    | none => { w with table }
    | some parent =>
      match table.slots[parent.slot]? with
      | none => { w with table }
      | some slot =>
        let (change, authority) := slot.authority.detachChild parent.generation
        reclaimAncestors fuel parent.slot change
          { w with table := table.setAuthority parent.slot authority }
  | _, _, _, w => w

def conclude : HandleSlotChange × HandleSlot → Bool × HandleWrite P
  | (.unchanged, _) => (false, w)
  | (change, authority) =>
    (true, reclaimAncestors w.table.slots.length index change (w.retire index authority))

def release (id : HandleId) (w : HandleWrite P) : Bool × HandleWrite P :=
  match w.table.slots[id.index]? with
  | none => (false, w)
  | some slot => w.conclude id.index (slot.authority.release id.generation)

def revoke (id : HandleId) (w : HandleWrite P) : Bool × HandleWrite P :=
  match w.table.slots[id.index]? with
  | none => (false, w)
  | some slot => w.conclude id.index (slot.authority.revoke id.generation)

def idAt : HandleId where
  index
  generation := (w.table.slotAt index).authority.generation

def revokeLoop (process : Nat) : Nat → Nat → HandleWrite P → Nat × HandleWrite P
  | 0, count, w => (count, w)
  | fuel + 1, count, w =>
    match w.table.byOwner process with
    | none => (count, w)
    | some indices =>
      match w.revoke (w.idAt indices.first) with
      | (false, w) => (count, w)
      | (true, w) => revokeLoop process fuel (count + 1) w

/-- Revoke all handles of a process. Every turn of the loop takes an index out of the
process's index. -/
def revokeOwnedBy (process : Nat) (w : HandleWrite P) : Nat × HandleWrite P :=
  revokeLoop process (((w.table.byOwner process).map OwnerSlots.len).getD 0) 0 w

def releaseLoop (process : Nat) : Nat → Nat → Nat → HandleWrite P → Nat × HandleWrite P
  | 0, _, count, w => (count, w)
  | fuel + 1, remaining, count, w =>
    match w.table.byOwner process with
    | none => (count, w)
    | some indices =>
      if min remaining indices.len = 0 then (count, w)
      else
        let position := min remaining indices.len - 1
        match indices.atPosition position with
        | none => (count, w)
        | some index =>
          match w.release (w.idAt index) with
          | (released, w) => releaseLoop process fuel position (count + released.toNat) w

/-- Release all payloads of a process, walking backward through its index. The cursor
goes down with every turn. -/
def releaseOwnedBy (process : Nat) (w : HandleWrite P) : Nat × HandleWrite P :=
  let remaining := ((w.table.byOwner process).map OwnerSlots.len).getD 0
  releaseLoop process remaining remaining 0 w

end HandleWrite
end Xolotl.Kernel
