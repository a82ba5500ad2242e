import Xolotl.Kernel.Scope
import Xolotl.Lib.DenseIndex
import Xolotl.Lib.Lookup

/-! The hosted process tree: entries with their budget accounts and lifecycle scopes,
the vectors of children, the attached tasks and the queue of entries to reap. Every
definition is one critical section of the table's lock. -/

namespace Xolotl.Kernel

open Word

/-- The live bookkeeping for one process. Of the payloads that an entry retains only
their presence matters here, of the finalizer programs their number. -/
structure ProcessEntry where
  scope : Scope
  parent : Option Nat
  parentSlot : Nat := 0
  onFinalize : Nat := 0
  steps : Bool := false
  requestAuthorizer : Bool := false
  publication : Bool := false
  finalization : Bool := false
  reapQueued : Bool := false
  cleanupPin : Nat := 0
  managedCaptures : Nat := 0
  deriving DecidableEq, Repr

namespace ProcessEntry

def new (id : Nat) (parent : Option Nat) : ProcessEntry := { scope := { process := id }, parent }

def acceptsChildren (e : ProcessEntry) : Bool := e.scope.acceptsChildren

def hasTreeCleanup (e : ProcessEntry) : Bool := e.scope.cleanup == some .tree

end ProcessEntry

inductive ProcessAdmissionError
  | unavailable (process : Nat)
  | occupied (process : Nat)
  | capacity (limit : Nat)
  | identifierExhausted
  deriving DecidableEq, Repr

inductive TaskAttachment
  | attached | alreadyTerminal | noSuchProcess | alreadyAttached | noRuntime
  deriving DecidableEq, Repr

inductive FinalizeStart
  | started | alreadyFinalizing | alreadyTerminal | noSuchProcess | invalidStatus
  deriving DecidableEq, Repr

/-- The table, with the flags that tasks share with it. Tasks are numbered. -/
structure ProcessTable where
  procs : Finmap fun _ : Nat => ProcessEntry := ∅
  children : Finmap fun _ : Nat => List Nat := ∅
  tasks : Finmap fun _ : Nat => Nat := ∅
  capacity : Option Nat := none
  reapReady : List Nat := []
  next : Nat := 1
  abandoned : Finset Nat := ∅
  exited : Finset Nat := ∅

namespace ProcessTable

variable (t : ProcessTable) (id : Nat)

def get : Option ProcessEntry := t.procs.lookup id

def len : Nat := t.procs.keys.card

def modify (t : ProcessTable) (id : Nat) (f : ProcessEntry → ProcessEntry) : ProcessTable :=
  { t with procs := t.procs.modify id f }

def childrenOf : List Nat := (t.children.lookup id).getD []

/-! ## Retention -/

def checkVacancy : Except ProcessAdmissionError Unit :=
  if (t.get id).isSome then .error (.occupied id)
  else
    match t.capacity with
    | some limit => if limit ≤ t.len then .error (.capacity limit) else .ok ()
    | none => .ok ()

def checkChildAdmission (parent : Option Nat) : Except ProcessAdmissionError Unit :=
  match t.checkVacancy id with
  | .error e => .error e
  | .ok () =>
    match parent.bind t.get with
    | none => .error (.unavailable (parent.getD id))
    | some entry =>
      if !entry.acceptsChildren then .error (.unavailable (parent.getD id)) else .ok ()

variable (entry : ProcessEntry)

def linkEntry : ProcessTable :=
  match entry.parent with
  | none => { t with procs := t.procs.insert entry.scope.process entry }
  | some parent =>
    let inherited := ((t.get parent).map ProcessEntry.requestAuthorizer).getD false
    let siblings := t.childrenOf parent
    let entry := { entry with
      requestAuthorizer := entry.requestAuthorizer || inherited, parentSlot := siblings.length }
    { t with
      children := t.children.insert parent (siblings ++ [entry.scope.process])
      procs := t.procs.insert entry.scope.process entry }

def canReap : Bool :=
  match t.get id with
  | none => false
  | some entry =>
    entry.scope.finalized && entry.cleanupPin == 0 && entry.managedCaptures == 0 &&
      !entry.requestAuthorizer && !entry.publication && !entry.steps && entry.onFinalize == 0 &&
      entry.scope.status.isTerminal && !entry.scope.finalizerActive &&
      entry.scope.budget.inflightOps == 0 && entry.parent.isSome &&
      (t.tasks.lookup id).isNone && (t.childrenOf id).isEmpty

def queueReapIfEligible : ProcessTable :=
  if !t.canReap id then t
  else
    match t.get id with
    | none => t
    | some entry =>
      if entry.reapQueued then t
      else { t.modify id fun e => { e with reapQueued := true } with
        reapReady := t.reapReady ++ [id] }

def unlinkFromParent : ProcessTable :=
  match entry.parent with
  | none => t
  | some parent =>
    let t := match t.children.lookup parent with
      | none => t
      | some siblings =>
        let rest := DenseIndex.swapRemove siblings entry.parentSlot
        let t := match rest[entry.parentSlot]? with
          | none => t
          | some moved => t.modify moved fun e => { e with parentSlot := entry.parentSlot }
        { t with children :=
          if rest.isEmpty then t.children.erase parent else t.children.insert parent rest }
    t.queueReapIfEligible parent

/-- One candidate of the reap queue: the table without it, if it is still eligible. -/
def reapOne : Bool × ProcessTable :=
  let t := t.modify id fun e => { e with reapQueued := false }
  if !t.canReap id then (false, t)
  else
    match t.get id with
    | none => (false, t)
    | some entry =>
      let t := { t with procs := t.procs.erase id, children := t.children.erase id }
      (true, t.unlinkFromParent entry)

def reapFinalized : Nat → ProcessTable → Nat × ProcessTable
  | 0, t => (0, t)
  | limit + 1, t =>
    match t.reapReady with
    | [] => (0, t)
    | id :: rest =>
      let (removed, t) := { t with reapReady := rest }.reapOne id
      let (count, t) := reapFinalized limit t
      (count + removed.toNat, t)

def hasRoom : Bool := t.capacity.all fun limit => decide (t.len < limit)

def reclaimLoop : Nat → Nat → ProcessTable → ProcessTable
  | 0, _, t => t
  | fuel + 1, remaining, t =>
    if remaining = 0 then t
    else
      let examined := min remaining 32
      let t := (reapFinalized examined t).2
      if t.hasRoom then t else reclaimLoop fuel (remaining - examined) t

def reclaimForAdmission : ProcessTable :=
  reclaimLoop t.reapReady.length t.reapReady.length t

def setCapacity (capacity : Option Nat) : Except (Nat × Nat) ProcessTable :=
  match capacity with
  | some limit =>
    if limit < t.len then .error (limit, t.len) else .ok { t with capacity }
  | none => .ok { t with capacity }

/-! ## Admission -/

def freshId : Except ProcessAdmissionError Nat × ProcessTable :=
  if u64Max < t.next + 1 then (.error .identifierExhausted, t)
  else (.ok (t.next + 1), { t with next := t.next + 1 })

def admitEntry : Except ProcessAdmissionError Unit × ProcessTable :=
  match t.checkChildAdmission entry.scope.process entry.parent with
  | .error e => (.error e, t)
  | .ok () => (.ok (), t.linkEntry entry)

def initializeRoot : ProcessTable :=
  let entry := ProcessEntry.new 1 none
  t.linkEntry { entry with scope := entry.scope.start.2 }

def discardUnstartedChild (id parent : Nat) : Bool × ProcessTable :=
  match t.get id with
  | none => (false, t)
  | some entry =>
    if entry.parent == some parent && entry.scope.status == .running &&
        entry.scope.cleanup.isNone && !entry.finalization && entry.managedCaptures == 0 &&
        entry.scope.budget.inflightOps == 0 && (t.childrenOf id).isEmpty &&
        (t.tasks.lookup id).isNone then
      (true, { t with procs := t.procs.erase id }.unlinkFromParent entry)
    else (false, t)

def activateChild (id finalizers : Nat) : Bool × ProcessTable :=
  match t.get id with
  | none => (false, t)
  | some child =>
    if child.scope.status != .created || !child.acceptsChildren ||
        !((child.parent.bind t.get).any ProcessEntry.acceptsChildren) then (false, t)
    else (true, t.modify id fun e => { e with scope := e.scope.start.2, onFinalize := finalizers })

def setRequestAuthorizer : Option Unit × ProcessTable :=
  match t.get id with
  | none => (none, t)
  | some entry =>
    if entry.scope.finalized then (none, t)
    else (some (), t.modify id fun e => { e with requestAuthorizer := true })

/-! ## Finalization -/

def updateScope (finalization : Bool) (scope : Scope) : ProcessTable :=
  t.modify id fun e => { e with scope, finalization := e.finalization || finalization }

def beginFinalizing (t : ProcessTable) (id : Nat) (status : ProcessStatus) :
    FinalizeStart × ProcessTable :=
  match t.get id with
  | none => (.noSuchProcess, t)
  | some entry =>
    match entry.scope.beginFinalizing status with
    | (.started, scope) => (.started, t.updateScope id true scope)
    | (.alreadyFinalizing, _) => (.alreadyFinalizing, t)
    | (.alreadyTerminal, _) => (.alreadyTerminal, t)
    | (.invalidStatus, _) => (.invalidStatus, t)

def releaseFinalizing (t : ProcessTable) (id : Nat) : ProcessTable :=
  (t.modify id fun e => { e with scope := e.scope.releaseFinalizing }).queueReapIfEligible id

def markTerminalStatus (t : ProcessTable) (id : Nat) (status : ProcessStatus) :
    Option ProcessStatus × ProcessTable :=
  match t.get id with
  | none => (none, t)
  | some entry =>
    let (status, scope) := entry.scope.markTerminalStatus status
    (some status, t.updateScope id false scope)

def completeFinalization (t : ProcessTable) (id : Nat) : Option Unit × ProcessTable :=
  match t.get id with
  | none => (none, t)
  | some entry =>
    match entry.scope.completeFinalization with
    | (false, _) => (none, t)
    | (true, scope) =>
      let t := t.modify id fun e => { e with
        scope, finalization := false, steps := false, onFinalize := 0, publication := false
        requestAuthorizer := false }
      (some (), t.queueReapIfEligible id)

def cancelIfNonTerminal : Option Bool × ProcessTable :=
  match t.get id with
  | none => (none, t)
  | some entry =>
    match entry.scope.cancel with
    | (false, _) => (some false, t)
    | (true, scope) => (some true, t.updateScope id false scope)

def retainOutcome (status : ProcessStatus) : Option Bool × ProcessTable :=
  match t.get id with
  | none => (none, t)
  | some entry =>
    match entry.scope.finishBody status with
    | (false, _) => (some false, t)
    | (true, scope) => (some true, t.updateScope id true scope)

def nextFinalizer : Bool × ProcessTable :=
  match t.get id with
  | none => (false, t)
  | some entry =>
    if !entry.finalization || entry.onFinalize == 0 then (false, t)
    else (true, t.modify id fun e => { e with onFinalize := e.onFinalize - 1 })

def subtreePostOrder (t : ProcessTable) : Nat → List Nat → List Nat → List Nat
  | 0, _, out => out
  | _ + 1, [], out => out
  | fuel + 1, id :: pending, out =>
    subtreePostOrder t fuel ((t.childrenOf id).reverse ++ pending) (id :: out)

def requestTreeCleanup (t : ProcessTable) (id : Nat) : ProcessTable :=
  match t.get id with
  | none => t
  | some entry =>
    let (needed, scope) := entry.scope.requestTreeCleanup
    t.updateScope id needed scope

/-- Close admission for a whole tree; `fuel` bounds the walk over it. -/
def requestCleanupTree (fuel root : Nat) : List Nat × ProcessTable :=
  if (t.get root).isNone then ([], t)
  else
    let members := (t.subtreePostOrder fuel [root] []).filter fun id => (t.get id).isSome
    (members, members.foldl requestTreeCleanup t)

def abandonScope (fuel id : Nat) : List Nat × ProcessTable :=
  match t.get id with
  | none => ([], t)
  | some entry =>
    let (cleanup, scope) := entry.scope.abandon
    let t := t.updateScope id false scope
    match cleanup with
    | none => ([], t)
    | some .local_ => ([id], t)
    | some .tree => t.requestCleanupTree fuel id

/-! ## Cleanup tickets -/

def pinCleanup : Option Unit × ProcessTable :=
  match t.get id with
  | none => (none, t)
  | some _ => (some (), t.modify id fun e => { e with cleanupPin := e.cleanupPin + 1 })

def dropTicket : ProcessTable :=
  let t := t.modify id fun e => { e with cleanupPin := e.cleanupPin - 1 }
  if (t.get id).any fun e => e.cleanupPin != 0 then t else t.queueReapIfEligible id

def cleanupMembers (fuel id : Nat) : List Nat :=
  match t.get id with
  | none => []
  | some owner => if !owner.hasTreeCleanup then [id] else t.subtreePostOrder fuel [id] []

/-- Pin the members of a selected cleanup, and hand a selected tree down to them. -/
def cleanupSelection (fuel id : Nat) : ProcessTable :=
  let members := t.cleanupMembers fuel id
  let tree := (t.get id).any ProcessEntry.hasTreeCleanup
  let t := members.foldl (fun t id => (t.pinCleanup id).2) t
  if tree then members.foldl requestTreeCleanup t else t

/-! ## Tasks -/

def captureTask : Option Unit × ProcessTable :=
  match t.get id with
  | none => (none, t)
  | some _ => (some (), t.modify id fun e => { e with managedCaptures := e.managedCaptures + 1 })

def dropCaptures : ProcessTable :=
  (t.modify id fun e => { e with managedCaptures := e.managedCaptures - 1 }).queueReapIfEligible id

def attachManagedTask (id task : Nat) : TaskAttachment × ProcessTable :=
  match t.get id with
  | none => (.noSuchProcess, t)
  | some entry =>
    if !entry.acceptsChildren || decide (task ∈ t.abandoned) || decide (task ∈ t.exited) then
      (.alreadyTerminal, t)
    else if (t.tasks.lookup id).isSome then (.alreadyAttached, t)
    else (.attached, { t with tasks := t.tasks.insert id task })

def abandonTask (task : Nat) : ProcessTable :=
  { t with abandoned := insert task t.abandoned }

def releaseTask (id task : Nat) : ProcessTable :=
  let t := { t with exited := insert task t.exited }
  let t := if t.tasks.lookup id = some task then { t with tasks := t.tasks.erase id } else t
  t.queueReapIfEligible id

/-! ## Accounting -/

def setBudgetSpec (t : ProcessTable) (id : Nat) (spec : BudgetSpec) : ProcessTable :=
  t.modify id fun e => { e with scope := e.scope.setBudgetSpec spec }

def restrictBudget (ceiling : BudgetSpec) : ProcessTable :=
  t.modify id fun e => { e with
    scope := e.scope.setBudgetSpec (e.scope.limits.intersect ceiling) }

structure ReserveMode where
  finalizer : Bool := false
  cleanup : Bool := false
  deriving DecidableEq, Repr

def reserveScope (scope : Scope) (mode : ReserveMode) (reserved microUsd tokens : Nat) :
    Except String Scope :=
  if 0 < reserved then scope.reserveDescendant microUsd tokens
  else if mode.finalizer then scope.reserveFinalizer microUsd tokens
  else if mode.cleanup then scope.reserveCleanup microUsd tokens
  else scope.reserve microUsd tokens

/-- Debit the accounts from a process up to its root; at most as many as the table
retains. Also how many were debited. -/
def reserveWalk (mode : ReserveMode) (microUsd tokens : Nat) :
    Nat → Nat → Option Nat → ProcessTable → Except String Unit × Nat × ProcessTable
  | _, reserved, none, t => (.ok (), reserved, t)
  | 0, reserved, some _, t => (.error "process_unavailable", reserved, t)
  | remaining + 1, reserved, some account, t =>
    match t.get account with
    | none => (.error "process_unavailable", reserved, t)
    | some entry =>
      match reserveScope entry.scope mode reserved microUsd tokens with
      | .error e => (.error e, reserved, t)
      | .ok scope =>
        reserveWalk mode microUsd tokens remaining (reserved + 1) entry.parent
          (t.modify account fun e => { e with scope })

def rollback (microUsd tokens : Nat) : Nat → Option Nat → ProcessTable → ProcessTable
  | 0, _, t => t
  | _ + 1, none, t => t
  | reserved + 1, some account, t =>
    match t.get account with
    | none => t
    | some entry =>
      rollback microUsd tokens reserved entry.parent
        (t.modify account fun e => { e with scope := e.scope.settle microUsd 0 tokens 0 })

def reserveBudget (id microUsd tokens : Nat) (mode : ReserveMode) :
    Except String Unit × ProcessTable :=
  match reserveWalk mode microUsd tokens t.len 0 (some id) t with
  | (.ok (), _, t) => (.ok (), t)
  | (.error e, reserved, t) => (.error e, rollback microUsd tokens reserved (some id) t)

def settleWalk (reservedMicroUsd actualMicroUsd reservedTokens actualTokens : Nat) :
    Nat → Option Nat → ProcessTable → ProcessTable
  | 0, _, t => t
  | _ + 1, none, t => t
  | remaining + 1, some account, t =>
    match t.get account with
    | none => t
    | some entry =>
      let t := t.modify account fun e => { e with
        scope := e.scope.settle reservedMicroUsd actualMicroUsd reservedTokens actualTokens }
      settleWalk reservedMicroUsd actualMicroUsd reservedTokens actualTokens remaining
        entry.parent (t.queueReapIfEligible account)

def settleBudget
    (id reservedMicroUsd actualMicroUsd reservedTokens actualTokens : Nat) : ProcessTable :=
  settleWalk reservedMicroUsd actualMicroUsd reservedTokens actualTokens t.len (some id) t

end ProcessTable
end Xolotl.Kernel
