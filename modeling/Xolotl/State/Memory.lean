import Xolotl.Source.Memory

/-! The state of the in-memory backend behind its commit lock. -/

namespace Xolotl.State

open Xolotl.Types

/-! ## Notifications -/

structure WatchRegistry where
  entries : OrderedMap Nat Path

def WatchRegistry.matching (registry : WatchRegistry) (path : Path) : List Nat :=
  (registry.entries.entries.filter fun entry => path.matches_ entry.2).map Prod.fst

/-- A committed event and the subscriptions that matched it under the lock. -/
structure Notification where
  event : StateEvent
  targets : List Nat
  deriving DecidableEq

structure Watch where
  subscribers : WatchRegistry
  notifications : List Notification
  notifying : Bool

namespace Watch

def empty : Watch := ⟨⟨.empty⟩, [], false⟩

/-- Forget the targets without receivers, and the notifications without targets. -/
def prune (watch : Watch) (alive : Nat → Bool) : Watch :=
  { watch with
    notifications := (watch.notifications.map fun notification =>
      { notification with targets := notification.targets.filter alive }).filter
        fun notification => !notification.targets.isEmpty }

/-- Make room for one more notification; the flag says whether there is any. -/
def reserve (watch : Watch) (options : InMemoryOptions) (alive : Nat → Bool) (targets : List Nat) :
    Bool × Watch :=
  if !targets.isEmpty && options.notificationCapacity ≤ watch.notifications.length then
    let watch := watch.prune alive
    (watch.notifications.length < options.notificationCapacity, watch)
  else (true, watch)

/-- Enqueue an event for its targets and take over draining if nobody else does. -/
def publish (watch : Watch) (event : StateEvent) (targets : List Nat) : Watch :=
  let notifications :=
    if targets.isEmpty then watch.notifications else watch.notifications ++ [⟨event, targets⟩]
  { watch with
    notifications := notifications
    notifying := watch.notifying || !notifications.isEmpty }

end Watch

/-! ## State -/

structure Journal where
  history : List StateHistoryEntry
  historyBaselines : OrderedMap Path StateObservation
  historyFloor : Int
  lastHistoryMillis : Int
  source : Source.SourceMemory
  absence : AbsenceUsage

def i64Min : Int := -2 ^ 63

structure MemoryState where
  values : OrderedMap Path CurrentRecord
  journal : Journal
  watch : Watch

namespace MemoryState

def empty : MemoryState :=
  ⟨.empty, ⟨[], .empty, i64Min, 0, .empty, ⟨0, 0⟩⟩, .empty⟩

end MemoryState

structure Sample where
  nowMillis : Int
  alive : Nat → Bool

/-- The timestamp of the next retained event, beyond the last one whatever the wall clock says.
It is `none` when the range is exhausted. -/
def Journal.nextMillis (journal : Journal) (nowMillis : Int) : Option Int :=
  if journal.lastHistoryMillis + 1 ≤ Source.i64Max then
    some (max (journal.lastHistoryMillis + 1) nowMillis)
  else none

def Journal.record (journal : Journal) (atMillis : Option Int) (event : StateEvent) : Journal :=
  match atMillis with
  | none => journal
  | some atMillis =>
    { journal with
      lastHistoryMillis := atMillis
      history := journal.history ++ [⟨atMillis, event⟩] }

end Xolotl.State
