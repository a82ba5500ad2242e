import Xolotl.Core.Transition

/-! The instruction machine: bounded task slots over shared frames and binding
rows, advanced cooperatively and completed by host events. -/

namespace Xolotl.Core

structure Execution (V E : Type) where
  tasks : List (Task V E)
  frames : Frames V E
  bindings : List (Option V)
  limits : ExecutionLimits
  steps : Nat := 0
  cleanupSteps : Nat := 0
  ticket : Nat := 0
  cursor : Nat := 0
  aborting : Bool := false
  imageId : Nat

structure Machine (S V E : Type) where
  exec : Execution V E
  host : S

namespace Execution

variable {V E : Type} (x : Execution V E)

def task (i : Nat) : Task V E := (x.tasks[i]?).getD {}

def setTask (i : Nat) (t : Task V E) : Execution V E :=
  { x with tasks := x.tasks.set i t }

def setState (i : Nat) (state : State V E) : Execution V E :=
  x.setTask i { x.task i with state }

def bindingIndex (task slot : Nat) : Nat :=
  task * x.limits.bindingsPerTask + slot

def binding (task slot : Nat) : Option V :=
  (x.bindings[x.bindingIndex task slot]?).getD none

def setBinding (task slot : Nat) (value : Option V) : Execution V E :=
  { x with bindings := x.bindings.set (x.bindingIndex task slot) value }

def new (image : ProgramImage V E) (tasks frames bindings : Nat) (limits : ExecutionLimits)
    (input : V) (context : Nat) : Except Fault (Execution V E) :=
  match image.validate with
  | .error e => .error e
  | .ok () =>
    if tasks = 0 ∨ Word.u32Max < tasks then .error .tasks
    else if h : frames ≤ noFrame then
      if limits.bindingsPerTask < image.bindings ∨ bindings / tasks < limits.bindingsPerTask then
        .error .invalidBinding
      else .ok {
        tasks := (List.replicate tasks {}).set 0
          { state := .ready, pc := image.entry, input := some input, context }
        frames := .new frames h
        bindings := List.replicate bindings none
        limits
        imageId := image.id }
    else .error .frames

def isPending (task ticket : Nat) : Bool :=
  (x.task 0).state.terminalResult.isNone &&
    match (x.task task).state with
    | .waiting live _ => live == ticket
    | _ => false

def cancel : Execution V E :=
  if (x.task 0).state.terminalResult.isSome then x
  else { x with
    aborting := true
    tasks := x.tasks.map fun t =>
      match t.state with
      | .free | .done _ | .halted _ _ => t
      | _ => { t with cancelled := true } }

def quota : Execution V E :=
  if x.aborting = false ∧ (x.limits.maxSteps.any fun max => decide (max ≤ x.steps)) = true
  then x.cancel else x

/-- Whether the parent links above a task reach `root`; the number of task slots
bounds the climb. -/
def descends (x : Execution V E) (root : Nat) : Nat → Option Nat → Bool
  | 0, _ => false
  | _ + 1, none => false
  | n + 1, some index =>
    if index = root then true else x.descends root n (x.task index).parent

def cancelTree (root : Nat) : Execution V E :=
  let x := x.setTask root { x.task root with cancelled := true }
  { x with tasks := x.tasks.map fun t =>
      if x.descends root x.tasks.length t.parent then { t with cancelled := true } else t }

/-- Cancel the loser of a race that has a finished branch; the left branch wins
when both are finished. -/
def sweep (j : JoinState) : Execution V E :=
  let a := (x.task j.left).state.isDone
  let b := (x.task j.right).state.isDone
  if j.join = .race ∧ (a || b) then x.cancelTree (if a then j.right else j.left) else x

def free (task : Nat) : Execution V E :=
  let x := { x with frames := x.frames.drain task }
  let x := (List.range x.limits.bindingsPerTask).foldl
    (fun x slot => x.setBinding task slot none) x
  x.setTask task {}

def freeSlots : List Nat :=
  (List.range x.tasks.length).filter fun i => (x.task i).state.isFree

def adopt (task child : Nat) : Execution V E :=
  let x := x.setTask child { x.task child with
    parent := some task, context := (x.task task).context, cleaning := (x.task task).cleaning }
  (List.range x.limits.bindingsPerTask).foldl
    (fun x slot => x.setBinding child slot (x.binding task slot)) x

def start (task pc : Nat) (input : V) : Execution V E :=
  x.setTask task { x.task task with pc, input := some input, state := .ready }

def fork (task left right : Nat) (join : Join) (node : Nat) (input : V) :
    Except Fault (Execution V E) :=
  match x.freeSlots with
  | a :: b :: _ =>
    let x := (x.start a left input).start b right input
    let x := (x.adopt task a).adopt task b
    .ok (x.setState task (.joining { left := a, right := b, join, node }))
  | _ => .error .tasks

def ready (i : Nat) : Bool :=
  match (x.task i).state with
  | .waiting _ _ => false
  | .joining j =>
    let a := (x.task j.left).state.isDone
    let b := (x.task j.right).state.isDone
    (a && b) || (j.join == .race &&
      ((a && !(x.task j.right).cancelled) || (b && !(x.task j.left).cancelled)))
  | _ => true

end Execution

/-! ## One task of a machine -/

structure Focus (S V E : Type) extends Machine S V E where
  index : Nat

namespace Focus

variable {S V E : Type}

def mapExec (x : Focus S V E) (f : Execution V E → Execution V E) : Focus S V E :=
  { x with exec := f x.exec }

instance : TaskCell (Focus S V E) S V E where
  index x := x.index
  task x := x.exec.task x.index
  setTask t x := x.mapExec fun e => e.setTask x.index t
  push kind x := (x.exec.frames.push x.index kind x.exec.limits.framesPerTask).map fun frames =>
    x.mapExec fun e => { e with frames }
  pop x := ((x.exec.frames.pop x.index).1,
    x.mapExec fun e => { e with frames := (x.exec.frames.pop x.index).2 })
  check count x := x.exec.frames.check x.index count x.exec.limits.framesPerTask
  bindingsPerTask x := x.exec.limits.bindingsPerTask
  binding slot x := x.exec.binding x.index slot
  setBinding slot value x := x.mapExec fun e => e.setBinding x.index slot value
  ticket x := x.exec.ticket
  setTicket ticket x := x.mapExec fun e => { e with ticket }
  host x := x.host
  setHost host x := { x with host }

end Focus

namespace Machine

variable {S V E : Type}

def onTask {α : Type} (i : Nat) (m : StateM (Focus S V E) α) : StateM (Machine S V E) α := fun x =>
  ((m { x with index := i }).1, (m { x with index := i }).2.toMachine)

def ask {α : Type} (op : StateM S α) : StateM (Machine S V E) α := fun x =>
  ((op x.host).1, { x with host := (op x.host).2 })

def getExec : StateM (Machine S V E) (Execution V E) := fun x => (x.exec, x)

def modifyExec (f : Execution V E → Execution V E) : StateM (Machine S V E) Unit := fun x =>
  ((), { x with exec := f x.exec })

variable (image : ProgramImage V E) (values : Values S V E)

/-! ## Joining -/

def joinResult (join : Join) (leftCancelled : Bool) (a b : Except E V) : StateM S (Except E V) :=
  match join with
  | .all =>
    match a, b with
    | .ok a, .ok b => values.pair a b
    | .error e, _ => pure (.error e)
    | .ok _, .error e => pure (.error e)
  | .race => pure (if leftCancelled then b else a)

variable (task : Nat)

def resolve (j : JoinState) (a b : Except E V) : StateM (Machine S V E) (Except Fault Unit) := do
  let leftCancelled := ((← getExec).task j.left).cancelled
  modifyExec fun x => (x.setState j.left .free).setState j.right .free
  let leftControl ← ask (values.retainResult a)
  let rightControl ← ask (values.retainResult b)
  let control ← ask (values.influence leftControl rightControl)
  let result ← ask (joinResult values j.join leftCancelled a b)
  let result ← ask (values.influenceResult result control)
  modifyExec fun x => (x.free j.left).free j.right
  onTask task (TaskCell.finish image values j.node result)

def joinStep (j : JoinState) : StateM (Machine S V E) (Except Fault Unit) := do
  let x ← getExec
  modifyExec fun x => x.sweep j
  match (x.task j.left).state, (x.task j.right).state with
  | .done ra, .done rb => resolve image values task j ra rb
  | _, _ => return .ok ()

/-! ## Transitions -/

/-- Run a forked instruction's remaining part on the other task slots. -/
def signal : Signal V → StateM (Machine S V E) (Except Fault (Option (Request V)))
  | .idle => return .ok none
  | .request r => return .ok (some r)
  | .fork left right join node input => do
    match (← getExec).fork task left right join node input with
    | .ok x => do
      modifyExec fun _ => x
      return .ok none
    | .error e => return .error e

def transition : StateM (Machine S V E) (Except Fault (Option (Request V))) := do
  match ((← getExec).task task).state with
  | .returning outcome =>
    return (← onTask task (TaskCell.unwind image values outcome)).map fun _ => none
  | .joining j => return (← joinStep image values task j).map fun _ => none
  | .ready => do
    match ← onTask task (TaskCell.dispatch image values) with
    | .ok s => signal task s
    | .error e => return .error e
  | _ => return .ok none

inductive Scan
  | none
  | cancel (task ticket : Nat)
  | selected (task : Nat)
  deriving DecidableEq, Repr

/-- Stop ordinary work of a cancelled task before it is selected. -/
def interrupt (i : Nat) : StateM (Machine S V E) Unit := do
  let t := (← getExec).task i
  if t.cancelled = true ∧ t.cleaning = 0 then
    match t.state with
    | .joining _ => pure ()
    | .returning (.error _) => pure ()
    | _ => do
      let result ← onTask i (TaskCell.faultResult values .cancelled)
      modifyExec fun x => x.setState i (.returning result)
  else pure ()

def scan : List Nat → StateM (Machine S V E) Scan
  | [] => return .none
  | i :: rest => do
    let t := (← getExec).task i
    match t.state with
    | .free => scan rest
    | .done _ => scan rest
    | .waiting ticket _ =>
      if t.cancelled = true ∧ t.cleaning = 0 then return .cancel i ticket else scan rest
    | _ => do
      interrupt values i
      if (← getExec).ready i then return .selected i else scan rest

/-! ## Embedding failures -/

def retainTask (t : Task V E) (control : V) : StateM S V := do
  match t.state with
  | .free => return control
  | state => do
    let control ← match t.input with
      | some input => values.influence control input
      | none => pure control
    match state with
    | .returning result | .done result | .halted result _ => do
      let result ← values.retainResult result
      values.influence control result
    | _ => return control

def retainFrame (frame : Option (Frame V E)) (control : V) : StateM S V := do
  match frame.map Frame.kind with
  | some (.finally_ _ input) | some (.choose _ _ input) | some (.condition _ _ _ input) =>
    values.influence control input
  | some (.cleaned outcome) => do
    let result ← values.retainResult outcome
    values.influence control result
  | _ => return control

def retainControl : StateM (Machine S V E) V := do
  let x ← getExec
  let control ← ask values.unit
  let control ← ask (x.tasks.foldlM (fun control t => retainTask values t control) control)
  ask (x.frames.pool.slots.foldlM (fun control f => retainFrame values f control) control)

def terminalFault (fault : Fault) : StateM (Machine S V E) (Except E V) := do
  let control ← retainControl values
  let error ← ask (values.error fault)
  ask (values.influenceResult (.error error) control)

def halt : StateM (Machine S V E) (Except E V) := do
  let result ← terminalFault values .fuel
  modifyExec fun x => x.setState 0 (.halted result (x.task 0).state.join)
  return result

/-! ## Turns -/

inductive Turn (V E : Type)
  | request (request : Request V)
  | cancel (task ticket : Nat)
  | waiting
  | done (result : Except E V)
  | moved
  | faulted (fault : Fault)
  | halted (result : Except E V)

def scanOrder (x : Execution V E) : List Nat :=
  (List.range x.tasks.length).map fun offset => (x.cursor + offset) % x.tasks.length

/-- Charge the transition of a selected task; `false` when the cleanup budget is
exhausted. -/
def charge : StateM (Machine S V E) Bool := do
  let x ← getExec
  if x.aborting ∧ x.limits.cleanupSteps ≤ x.cleanupSteps then return false
  else do
    modifyExec fun x => { x with
      cleanupSteps := if x.aborting then x.cleanupSteps + 1 else x.cleanupSteps
      steps := if x.aborting then x.steps else min (x.steps + 1) Word.u64Max
      cursor := (task + 1) % x.tasks.length }
    return true

def perform : StateM (Machine S V E) (Turn V E) := do
  match ← transition image values task with
  | .ok (some r) => return .request r
  | .ok none => return .moved
  | .error fault => do
    let result ← onTask task (TaskCell.faultResult values fault)
    modifyExec fun x => x.setState task (.returning result)
    return .faulted fault

def pick : StateM (Machine S V E) Scan := do
  modifyExec Execution.quota
  scan values (scanOrder (← getExec))

def turn : StateM (Machine S V E) (Turn V E) := do
  match ((← getExec).task 0).state.terminalResult with
  | some result => return .done result
  | none => do
    match ← pick values with
    | .none => return .waiting
    | .cancel task ticket => return .cancel task ticket
    | .selected task => do
      if ← charge task then perform image values task else return .halted (← halt values)

/-! ## The interface of an execution -/

inductive Advance (V E : Type)
  | request (request : Request V)
  | cancel (task ticket : Nat)
  | yielded
  | waiting
  | done (result : Except E V)

def advanceLoop : Nat → StateM (Machine S V E) (Advance V E)
  | 0 => return .yielded
  | fuel + 1 => do
    match ← turn image values with
    | .moved => advanceLoop fuel
    | .faulted _ => advanceLoop fuel
    | .request r => return .request r
    | .cancel task ticket => return .cancel task ticket
    | .waiting => return .waiting
    | .done result => return .done result
    | .halted result => return .done result

def advance (fuel : Nat) : StateM (Machine S V E) (Advance V E) := do
  if image.id ≠ (← getExec).imageId then return .done (← terminalFault values .imageMismatch)
  else advanceLoop image values fuel

def complete (task ticket : Nat) (event : HostEvent V E) :
    StateM (Machine S V E) (Except Fault Unit) := do
  let x ← getExec
  if image.id ≠ x.imageId then return .error .imageMismatch
  else if (x.task 0).state.terminalResult.isSome then return .error .staleEvent
  else
    match (x.task task).state with
    | .waiting live node =>
      if live = ticket then onTask task (TaskCell.deliver image values node event)
      else return .error .staleEvent
    | _ => return .error .staleEvent

def cancel : StateM (Machine S V E) Unit := modifyExec Execution.cancel

end Machine
end Xolotl.Core
