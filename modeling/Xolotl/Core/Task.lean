import Xolotl.Core.Frames

/-! Task slots of the instruction machine, the requests it emits and the events
a host answers with. -/

namespace Xolotl.Core

structure JoinState where
  left : Nat
  right : Nat
  join : Join
  node : Nat
  deriving DecidableEq, Repr

inductive State (V E : Type)
  | free
  | ready
  | waiting (ticket node : Nat)
  | joining (join : JoinState)
  | returning (outcome : Except E V)
  | done (outcome : Except E V)
  | halted (outcome : Except E V) (join : Option JoinState)
  deriving DecidableEq

namespace State

variable {V E : Type}

def terminalResult : State V E → Option (Except E V)
  | .done outcome => some outcome
  | .halted outcome _ => some outcome
  | _ => none

def join : State V E → Option JoinState
  | .joining j => some j
  | .halted _ j => j
  | _ => none

def isFree : State V E → Bool
  | .free => true
  | _ => false

def isDone : State V E → Bool
  | .done _ => true
  | _ => false

def isRunning : State V E → Bool
  | .ready | .waiting _ _ | .returning _ => true
  | _ => false

def isWaiting : State V E → Bool
  | .waiting _ _ => true
  | _ => false

variable {s : State V E}

theorem done_of_isDone (h : s.isDone = true) : ∃ outcome, s = .done outcome := by
  cases s <;> first | exact ⟨_, rfl⟩ | cases h

theorem not_free_of_isRunning (h : s.isRunning = true) : s.isFree = false := by
  cases s <;> first | rfl | cases h

theorem join_of_isRunning (h : s.isRunning = true) : s.join = none := by
  cases s <;> first | rfl | cases h

theorem terminalResult_of_isRunning {o : Except E V} (h : s.isRunning = true) :
    s.terminalResult ≠ some o := by
  intro ho
  cases s <;> cases ho <;> cases h

end State

structure Task (V E : Type) where
  state : State V E := .free
  pc : Nat := 0
  /-- Ready and waiting states own full input; other states retain control provenance. -/
  input : Option V := none
  context : Nat := 0
  parent : Option Nat := none
  cleaning : Nat := 0
  cancelled : Bool := false

structure Request (V : Type) where
  task : Nat
  ticket : Nat
  index : Nat
  input : V
  context : Nat
  position : Nat
  cleanup : Bool
  deriving DecidableEq, Repr

inductive HostEvent (V E : Type)
  | complete (result : Except E V)
  | enter (context : Nat)
  | continue_ (entry : Nat) (input : V)

structure ExecutionLimits where
  framesPerTask : Nat := 64
  bindingsPerTask : Nat := 64
  maxSteps : Option Nat := none
  cleanupSteps : Nat := 4096
  deriving DecidableEq, Repr

end Xolotl.Core
