import Xolotl.Core.Task

/-! The transitions of one task. They touch the task's own slot, its stack, its
binding row, the ticket counter and the host's values, and nothing else, so they
are written over the operations of such a cell. -/

namespace Xolotl.Core

/-- The part of a machine that the transitions of one task work on. -/
class TaskCell (σ : Type) (S V E : outParam Type) where
  index : σ → Nat
  task : σ → Task V E
  setTask : Task V E → σ → σ
  push : FrameKind V E → σ → Except Fault σ
  pop : σ → Option (FrameKind V E) × σ
  check : Nat → σ → Except Fault Unit
  bindingsPerTask : σ → Nat
  binding : Nat → σ → Option V
  setBinding : Nat → Option V → σ → σ
  ticket : σ → Nat
  setTicket : Nat → σ → σ
  host : σ → S
  setHost : S → σ → σ

abbrev Step (σ : Type) := ExceptT Fault (StateM σ)

inductive Signal (V : Type)
  | idle
  | request (request : Request V)
  | fork (left right : Nat) (join : Join) (node : Nat) (input : V)

namespace TaskCell

variable {σ S V E : Type} [TaskCell σ S V E]

/-! ## Operations -/

section
variable {m : Type → Type} [MonadState σ m]

def ask {α : Type} (op : StateM S α) : m α :=
  modifyGet fun x : σ => ((op (host x)).1, setHost (op (host x)).2 x)

def getTask : m (Task V E) := modifyGet fun x : σ => (task x, x)

def modifyTask (f : Task V E → Task V E) : m Unit :=
  modifyGet fun x : σ => ((), setTask (f (task x)) x)

def setState (state : State V E) : m Unit := modifyTask fun t => { t with state }

def setInput (input : Option V) : m Unit := modifyTask fun t => { t with input }

def start (pc : Nat) (input : V) : m Unit :=
  modifyTask fun t => { t with pc, input := some input, state := .ready }

end

def popFrame : Step σ (Option (FrameKind V E)) := modifyGet pop

def pushFrame (kind : FrameKind V E) : Step σ Unit := fun x =>
  match push kind x with
  | .ok y => (.ok (), y)
  | .error e => (.error e, x)

def checkFrames (count : Nat) : Step σ Unit := fun x => (check count x, x)

def limit : Step σ Nat := modifyGet fun x => (bindingsPerTask x, x)

def getBinding (slot : Nat) : Step σ (Option V) := modifyGet fun x => (binding slot x, x)

def putBinding (slot : Nat) (value : Option V) : Step σ Unit :=
  modifyGet fun x => ((), setBinding slot value x)

def getIndex : Step σ Nat := modifyGet fun x => (index x, x)

def nextTicket : Step σ Nat := fun x =>
  if ticket x = Word.u64Max then (.error .sequenceExhausted, x)
  else (.ok (ticket x + 1), setTicket (ticket x + 1) x)

def fetch (image : ProgramImage V E) (node : Nat) : Step σ (Node V E) := fun x =>
  (image.node node, x)

/-! ## Results -/

variable (image : ProgramImage V E) (values : Values S V E)

section
variable {m : Type → Type} [Monad m] [MonadState σ m]

def influenceInput (value : V) (input : Option V) : m V :=
  match input with
  | some input => ask (values.influence value input)
  | none => pure value

def influenceResult (result : Except E V) : m (Except E V) := do
  match (← getTask).input with
  | some control => ask (values.influenceResult result control)
  | none => pure result

def faultResult (fault : Fault) : m (Except E V) := do
  let error ← ask (values.error fault)
  let result ← influenceResult values (.error error)
  match (← getTask).state with
  | .returning previous | .done previous => do
    let control ← ask (values.retainResult previous)
    ask (values.influenceResult result control)
  | _ => pure result

end

def finish (node : Nat) (result : Except E V) : Step σ Unit := do
  let instruction ← fetch image node
  let result ← influenceResult values result
  match result with
  | .ok value =>
    match instruction.next with
    | some next => start next value
    | none => setState (.returning (.ok value))
  | .error e => setState (.returning (.error e))

/-! ## Returning -/

def resumeCatch (recover : Nat) (outcome : Except E V) : Step σ Unit := do
  let t ← getTask
  match outcome with
  | .error e =>
    if t.cancelled = false ∨ 0 < t.cleaning then do
      let value ← ask (values.errorValue e)
      let value ← influenceInput values value t.input
      start recover value
    else setState (.returning (.error e))
  | .ok value => setState (.returning (.ok value))

def resumeFinally (cleanup : Nat) (input : V) (outcome : Except E V) : Step σ Unit := do
  pushFrame (.cleaned outcome)
  modifyTask fun t => { t with cleaning := t.cleaning + 1 }
  start cleanup input

def resumeCleaned (original outcome : Except E V) : Step σ Unit := do
  modifyTask fun t => { t with cleaning := t.cleaning - 1 }
  let control ← ask (values.retainResult original)
  let result ← ask (values.influenceResult
    (match original, outcome with
      | .error e, _ => .error e
      | .ok _, .error e => .error e
      | .ok value, .ok _ => .ok value) control)
  setState (.returning result)

def resumeChoose (yes no : Nat) (input : V) (outcome : Except E V) : Step σ Unit := do
  match outcome with
  | .ok test => do
    match ← ask (values.truth test) with
    | .ok truth => do
      let value ← ask (values.influence input test)
      start (if truth then yes else no) value
    | .error e => setState (.returning (.error e))
  | .error e => setState (.returning (.error e))

def resumeBind (slot body : Nat) (outcome : Except E V) : Step σ Unit := do
  match outcome with
  | .ok value => do
    if (← limit) ≤ slot then throw .invalidBinding
    else do
      checkFrames 1
      let previous ← getBinding slot
      putBinding slot none
      pushFrame (.unbind slot previous)
      putBinding slot (some value)
      start body value
  | .error e => setState (.returning (.error e))

def resumeCondition (condition body left : Nat) (value : V) (outcome : Except E V) :
    Step σ Unit := do
  match outcome with
  | .ok test => do
    match ← ask (values.truth test) with
    | .ok false => do
      let value ← ask (values.influence value test)
      setState (.returning (.ok value))
    | .ok true =>
      if 0 < left then do
        pushFrame (.iteration condition body (left - 1))
        let value ← ask (values.influence value test)
        start body value
      else do
        let error ← ask (values.error .iterations)
        setState (.returning (.error error))
    | .error e => setState (.returning (.error e))
  | .error e => setState (.returning (.error e))

def resumeIteration (condition body left : Nat) (outcome : Except E V) : Step σ Unit := do
  match outcome with
  | .ok value => do
    pushFrame (.condition condition body left value)
    start condition value
  | .error e => setState (.returning (.error e))

def resume (frame : FrameKind V E) (outcome : Except E V) : Step σ Unit :=
  match frame with
  | .vacant => throw .invalidState
  | .finish node => finish image values node outcome
  | .continuation node _ => finish image values node outcome
  | .then_ next =>
    match outcome with
    | .ok value => start next value
    | .error e => setState (.returning (.error e))
  | .catch_ recover => resumeCatch values recover outcome
  | .finally_ cleanup input => resumeFinally cleanup input outcome
  | .cleaned original => resumeCleaned values original outcome
  | .context context => do
    modifyTask fun t => { t with context }
    setState (.returning outcome)
  | .choose yes no input => resumeChoose values yes no input outcome
  | .bind slot body => resumeBind slot body outcome
  | .unbind slot previous => do
    putBinding slot previous
    setState (.returning outcome)
  | .condition condition body left value => resumeCondition values condition body left value outcome
  | .iteration condition body left => resumeIteration condition body left outcome

def unwind (outcome : Except E V) : Step σ Unit := do
  setState .ready
  let outcome ← influenceResult values outcome
  let control ← ask (values.retainResult outcome)
  let control ← influenceInput values control (← getTask).input
  setInput (some control)
  match ← popFrame with
  | none => setState (.done outcome)
  | some frame => resume image values frame outcome

/-! ## Dispatching -/

def enter (frames : List (FrameKind V E)) (pc : Nat) (input : V) : Step σ (Signal V) :=
  match frames with
  | [] => do
    start pc input
    return .idle
  | frame :: frames => do
    pushFrame frame
    enter frames pc input

def emit (node : Node V E) (pc index : Nat) (input : V) : Step σ (Signal V) := do
  if image.imports ≤ index then throw .invalidImport
  else do
    let ticket ← nextTicket
    setState (.waiting ticket pc)
    let t ← getTask
    let task ← getIndex
    return .request { task, ticket, index, input, context := t.context, position := node.position,
                      cleanup := decide (0 < t.cleaning) }

def loadBinding (slot : Nat) : Step σ V := do
  if (← limit) ≤ slot then throw .invalidBinding
  else
    match ← getBinding slot with
    | some value => return value
    | none => throw .missingBinding

def dispatchKind (node : Node V E) (pc : Nat) (input : V) : Step σ (Signal V) := do
  match node.kind with
  | .literal value => do
    let value ← ask (values.influence value input)
    finish image values pc (.ok value)
    return .idle
  | .input => do
    finish image values pc (.ok input)
    return .idle
  | .load slot => do
    let value ← loadBinding slot
    let value ← ask (values.influence value input)
    finish image values pc (.ok value)
    return .idle
  | .fail e => do
    finish image values pc (.error e)
    return .idle
  | .request index => emit image node pc index input
  | .scope index _ => emit image node pc index input
  | .then_ first next => enter [.finish pc, .then_ next] first input
  | .catch_ body recover => enter [.finish pc, .catch_ recover] body input
  | .finally_ body cleanup => enter [.finish pc, .finally_ cleanup input] body input
  | .if_ yes no => do
    match ← ask (values.truth input) with
    | .ok test => enter [.finish pc] (if test then yes else no) input
    | .error e => do
      finish image values pc (.error e)
      return .idle
  | .call entry => enter [.finish pc] entry input
  | .branch condition yes no => enter [.finish pc, .choose yes no input] condition input
  | .let_ slot value body => enter [.finish pc, .bind slot body] value input
  | .while_ condition body max =>
    enter [.finish pc, .condition condition body max input] condition input
  | .fork left right join => return .fork left right join pc input

def retainedInput (node : Node V E) (input : V) : Step σ V :=
  match node.kind with
  | .request _ => pure input
  | .scope _ _ => pure input
  | _ => ask (values.retainControl input)

def dispatch : Step σ (Signal V) := do
  let t ← getTask
  let node ← fetch image t.pc
  match t.input with
  | none => throw .type
  | some input => do
    let retained ← retainedInput values node input
    setInput (some retained)
    dispatchKind image values node t.pc input

/-! ## Host events -/

def eventControl (node : Nat) (event : HostEvent V E) : Step σ (Option V) := do
  match event with
  | .complete result => do
    let control ← ask (values.retainResult result)
    return some control
  | .continue_ _ input => do
    match (← fetch image node).kind with
    | .request _ => do
      let control ← ask (values.retainControl input)
      return some control
    | _ => throw .staleEvent
  | .enter _ => return none

def keepControl (control : Option V) : Step σ Unit := do
  match control with
  | some control =>
    match (← getTask).input with
    | some input => do
      let input ← ask (values.influence input control)
      setInput (some input)
    | none => setInput (some control)
  | none => pure ()

def enterScope (node body context : Nat) : Step σ Unit := do
  checkFrames 2
  pushFrame (.finish node)
  pushFrame (.context (← getTask).context)
  modifyTask fun t => { t with context }
  let input := (← getTask).input
  setInput none
  match input with
  | some input => start body input
  | none => throw .type

def deliver (node : Nat) (event : HostEvent V E) : Step σ Unit := do
  let control ← eventControl image values node event
  keepControl values control
  match event with
  | .complete result => finish image values node result
  | .enter context => do
    match (← fetch image node).kind with
    | .scope _ body => enterScope node body context
    | _ => throw .staleEvent
  | .continue_ entry input => do
    discard (fetch image entry)
    pushFrame (.continuation node entry)
    let input ← influenceInput values input (← getTask).input
    start entry input

end TaskCell
end Xolotl.Core
