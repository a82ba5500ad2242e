import Xolotl.Lib.Word

/-! Lifecycle and accounting of one execution owner: the budget account of a process,
its status, the first terminal decision, the selected cleanup and the finalization
attempt. -/

namespace Xolotl.Kernel

open Word

inductive ProcessStatus
  | created | running | waiting | suspended | finalizing | completed | failed | cancelled
  deriving DecidableEq, Repr

def ProcessStatus.isTerminal : ProcessStatus → Bool
  | .completed | .failed | .cancelled => true
  | _ => false

/-! ## Budgets -/

structure BudgetSpec where
  maxMicroUsd : Option Nat := none
  maxInflightOps : Option Nat := none
  maxInferenceTokens : Option Nat := none
  deriving DecidableEq, Repr

def BudgetSpec.limit : Option Nat → Option Nat → Option Nat
  | some a, some b => some (min a b)
  | a, b => a.or b

def BudgetSpec.intersect (spec other : BudgetSpec) : BudgetSpec where
  maxMicroUsd := limit spec.maxMicroUsd other.maxMicroUsd
  maxInflightOps := limit spec.maxInflightOps other.maxInflightOps
  maxInferenceTokens := limit spec.maxInferenceTokens other.maxInferenceTokens

structure BudgetState where
  spentMicroUsd : Nat := 0
  inflightOps : Nat := 0
  inferenceTokens : Nat := 0
  deriving DecidableEq, Repr

namespace BudgetState

/-- One dimension of a reservation: the projected amount, unless it overflows its word
or exceeds its limit. -/
def project (name : String) (wordMax used amount : Nat) (max : Option Nat) : Except String Nat :=
  if wordMax < used + amount then .error name
  else if max.any fun max => decide (max < used + amount) then .error name
  else .ok (used + amount)

def tryReserve (b : BudgetState) (spec : BudgetSpec) (estMicroUsd estTokens : Nat) :
    Except String BudgetState := do
  let inflightOps ← project "inflight_ops" u32Max b.inflightOps 1 spec.maxInflightOps
  let spentMicroUsd ← project "micro_usd" u64Max b.spentMicroUsd estMicroUsd spec.maxMicroUsd
  let inferenceTokens ←
    project "inference_tokens" u64Max b.inferenceTokens estTokens spec.maxInferenceTokens
  return { spentMicroUsd, inflightOps, inferenceTokens }

def settle (b : BudgetState) (reservedMicroUsd actualMicroUsd reservedTokens actualTokens : Nat) :
    BudgetState where
  inflightOps := b.inflightOps - 1
  spentMicroUsd := min (b.spentMicroUsd - reservedMicroUsd + actualMicroUsd) u64Max
  inferenceTokens := min (b.inferenceTokens - reservedTokens + actualTokens) u64Max

end BudgetState

/-! ## The scope of one owner -/

inductive CleanupScope
  | local_ | tree
  deriving DecidableEq, Repr

inductive ScopeFinalize
  | started | alreadyFinalizing | alreadyTerminal | invalidStatus
  deriving DecidableEq, Repr

/-- The mutable state of one invocation scope, without its identity and its lifecycle
namespace. -/
structure Scope where
  process : Nat
  status : ProcessStatus := .created
  terminal : Option ProcessStatus := none
  cleanup : Option CleanupScope := none
  finalizerActive : Bool := false
  finalized : Bool := false
  budget : BudgetState := {}
  limits : BudgetSpec := {}
  deriving DecidableEq, Repr

namespace Scope

variable (s : Scope)

def acceptsChildren : Bool :=
  !s.status.isTerminal && s.status != .finalizing && s.terminal.isNone && s.cleanup.isNone &&
    !s.finalized

def start : Bool × Scope :=
  if s.status != .created || !s.acceptsChildren then (false, s)
  else (true, { s with status := .running })

def chooseTerminal (requested : ProcessStatus) : ProcessStatus × Scope :=
  let terminal := s.terminal.getD (if s.status.isTerminal then s.status else requested)
  (terminal, { s with terminal := some terminal })

def finishBody (status : ProcessStatus) : Bool × Scope :=
  if s.finalized || !status.isTerminal then (false, s)
  else
    let (_, s) := s.chooseTerminal status
    (true, { s with status := .finalizing, cleanup := some (s.cleanup.getD .local_) })

def beginFinalizing (status : ProcessStatus) : ScopeFinalize × Scope :=
  if !status.isTerminal then (.invalidStatus, s)
  else if s.finalized then (.alreadyTerminal, s)
  else if s.finalizerActive then (.alreadyFinalizing, s)
  else
    let (_, s) := s.chooseTerminal status
    (.started, { s with
      cleanup := some (s.cleanup.getD .local_), finalizerActive := true, status := .finalizing })

def releaseFinalizing : Scope :=
  let s := { s with finalizerActive := false }
  if s.terminal.isSome && !s.finalized then { s with cleanup := some (s.cleanup.getD .local_) }
  else s

def markTerminalStatus (requested : ProcessStatus) : ProcessStatus × Scope :=
  let s := if !s.status.isTerminal && requested.isTerminal
    then { s with status := s.terminal.getD requested } else s
  (s.status, s)

def completeFinalization : Bool × Scope :=
  if !s.status.isTerminal then (false, s)
  else (true, { s with
    finalized := true, terminal := none, cleanup := some (s.cleanup.getD .local_) })

def cancel : Bool × Scope :=
  if s.status.isTerminal || s.terminal.isSome then (false, s)
  else (true, { s with status := .cancelled })

def requestTreeCleanup : Bool × Scope :=
  let s := { s with cleanup := some .tree }
  if s.finalized then (false, s)
  else if s.terminal.isNone then
    let (status, s) := s.chooseTerminal .cancelled
    (true, { s with status })
  else (true, s)

def abandon : Option CleanupScope × Scope :=
  if s.finalized then (none, s)
  else
    let s := if s.terminal.isSome && s.cleanup != some .tree
      then { s with cleanup := some .local_ } else s.requestTreeCleanup.2
    (s.cleanup, s)

/-! ### Accounting -/

def setBudgetSpec (spec : BudgetSpec) : Scope := { s with limits := spec }

variable (microUsd tokens : Nat)

def charge : Except String Scope :=
  match s.budget.tryReserve s.limits microUsd tokens with
  | .error e => .error e
  | .ok budget => .ok { s with budget }

def reserve : Except String Scope :=
  if s.status != .running || !s.acceptsChildren then .error "process_unavailable"
  else s.charge microUsd tokens

def reserveFinalizer : Except String Scope :=
  if !s.finalizerActive || s.finalized || s.status != .finalizing then
    .error "process_unavailable"
  else s.charge microUsd tokens

def reserveCleanup : Except String Scope :=
  if s.finalized ||
      !(s.status == .running || s.status == .cancelled || s.status == .finalizing) then
    .error "process_unavailable"
  else s.charge microUsd tokens

def reserveDescendant : Except String Scope :=
  s.charge microUsd tokens

def settle (s : Scope) (reservedMicroUsd actualMicroUsd reservedTokens actualTokens : Nat) :
    Scope :=
  { s with
    budget := s.budget.settle reservedMicroUsd actualMicroUsd reservedTokens actualTokens }

end Scope
end Xolotl.Kernel
