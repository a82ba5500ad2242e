import Xolotl.Lib.OrderedMap
import Xolotl.Lib.Word
import Xolotl.Types.PathOrder
import Xolotl.Types.PathText
import Xolotl.Types.Taint
import Xolotl.Types.ValueList

/-! Current records of the in-memory backend, the events that change them, and the value
operations of a mutation. -/

namespace Xolotl.State

open Xolotl.Types

inductive StateError
  | valueUpdate (error : CollectionError)
  | casFailed (path : Text) (expected actual : Option Value)
  | serde (message : Text)
  | backend (message : Text)
  | missingCapability (name : Text)
  | invalidQuery (message : Text)
  | historyTrimmed (retainedFromMillis : Int)
  | historyExcluded
  | historyTrimLimit (provenanceObserved : Bool)
  | rowTooLarge (path : Path) (encodedBytes : Nat) (provenanceObserved : Bool)
      (retry : Option Text) (resume : Text)
  | pointTooLarge (path : Path) (encodedBytes limitEncodedBytes : Nat) (provenanceObserved : Bool)
  deriving DecidableEq

structure StateFailure where
  error : StateError
  taint : TaintSet
  deriving DecidableEq

def StateFailure.withTaint (failure : StateFailure) (taint : TaintSet) : StateFailure :=
  { failure with taint := failure.taint.union taint }

abbrev StateResult (α : Type) := Except StateFailure α

def StateError.fail {α : Type} (error : StateError) : StateResult α := .error ⟨error, .pristine⟩

def observing {α : Type} (taint : TaintSet) : StateResult α → StateResult α
  | .error failure => .error (failure.withTaint taint)
  | .ok a => .ok a

structure StateObservation where
  value : Option Value
  taint : TaintSet
  deriving DecidableEq

inductive StateEvent
  | set (path : Path) (value : Value) (taint : TaintSet)
  | append (path : Path) (item : Value) (taint : TaintSet)
  | dropPrefixAppend (path : Path) (removed : Nat) (item : Value) (taint : TaintSet)
  | delete (path : Path) (taint : TaintSet)
  deriving DecidableEq

structure StateHistoryEntry where
  atMillis : Int
  event : StateEvent
  deriving DecidableEq

/-! ## Value operations -/

def asList : Value → Option (List Value)
  | .list items => some items
  | _ => none

/-- A value list refuses a member beyond the address space. -/
def pushItem (items : List Value) (item : Value) (taint : TaintSet) : StateResult (List Value) :=
  if Word.u64Max < items.length + 1 then
    observing taint (StateError.fail (.valueUpdate .lengthOverflow))
  else .ok (items ++ [item])

def appendObservedValue (path : Path) (current : Option Value) (item : Value) (taint : TaintSet) :
    StateResult TaintedValue :=
  let values : StateResult (List Value) :=
    match current with
    | none => .ok []
    | some current =>
      match asList current with
      | some items => .ok items
      | none => .error ⟨.backend ("append on non-list at " ++ path.text), taint⟩
  match values with
  | .error failure => .error failure
  | .ok items =>
    match pushItem items item taint with
    | .error failure => .error failure
    | .ok items => .ok ⟨.list items, taint⟩

def dropPrefixAppendObservedValue (path : Path) (current : Option Value) (removed : Nat)
    (item : Value) (observed : TaintSet) : StateResult TaintedValue :=
  match current.bind asList with
  | none => .error ⟨.backend ("prefix drop on non-list at " ++ path.text), observed⟩
  | some items =>
    if items.length < removed then
      .error ⟨.backend ("prefix drop exceeds list at " ++ path.text), observed⟩
    else
      match pushItem (items.drop removed) item observed with
      | .error failure => .error failure
      | .ok items => .ok ⟨.list items, observed⟩

/-! ## Records -/

inductive CurrentRecord
  | live (value : TaintedValue)
  | absent (taint : TaintSet) (encodedBytes : Nat)
  deriving DecidableEq

structure AbsenceUsage where
  records : Nat
  encodedBytes : Nat
  deriving DecidableEq

namespace CurrentRecord

def value : CurrentRecord → Option Value
  | .live value => some value.value
  | .absent _ _ => none

def taint : CurrentRecord → TaintSet
  | .live value => value.taint
  | .absent taint _ => taint

def absenceCharge : Option CurrentRecord → AbsenceUsage
  | some (.absent _ encodedBytes) => ⟨1, encodedBytes⟩
  | _ => ⟨0, 0⟩

end CurrentRecord

structure AbsenceLimits where
  records : Option Nat
  encodedBytes : Option Nat
  deriving DecidableEq

inductive MemoryHistory
  | full | disabled
  deriving DecidableEq

structure InMemoryOptions where
  history : MemoryHistory
  notificationCapacity : Nat
  sourceStreamLimit : Nat
  sourceRetentionLimit : Nat
  absenceLimits : AbsenceLimits
  deriving DecidableEq

def exchange (count before after : Nat) : Option Nat :=
  if before ≤ count ∧ count - before + after ≤ Word.u64Max then some (count - before + after)
  else none

def AbsenceUsage.replacing (usage : AbsenceUsage) (before after : Option CurrentRecord)
    (options : InMemoryOptions) : StateResult AbsenceUsage :=
  let before := CurrentRecord.absenceCharge before
  let after := CurrentRecord.absenceCharge after
  match exchange usage.records before.records after.records,
      exchange usage.encodedBytes before.encodedBytes after.encodedBytes with
  | some records, some encodedBytes =>
    if (options.absenceLimits.records.any fun limit => limit < records && usage.records < records)
        || (options.absenceLimits.encodedBytes.any fun limit =>
          limit < encodedBytes && usage.encodedBytes < encodedBytes) then
      StateError.fail (.backend "state absence capacity exhausted")
    else .ok ⟨records, encodedBytes⟩
  | _, _ => StateError.fail (.backend "state absence accounting overflow")

/-- The vault keeps no mutation history. -/
def historyRetainsPath (path : Path) : Bool :=
  path.scheme != "state" || path.segments.head? != some ("vault" : Text)

end Xolotl.State
