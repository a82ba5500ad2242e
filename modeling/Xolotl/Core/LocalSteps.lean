import Xolotl.Core.Local

/-! What the transitions do to a task on its own, as equations: the outcome, the
task slot, the frames and the host's values after each kind of frame and each
kind of instruction. -/

namespace Xolotl.Core

open List

variable {S V E : Type}

/-! ## Values and slots -/

namespace Values

variable (values : Values S V E)

def colored (value : V) (input : Option V) : StateM S V :=
  match input with
  | some input => values.influence value input
  | none => pure value

def coloredResult (result : Except E V) (input : Option V) : StateM S (Except E V) :=
  match input with
  | some control => values.influenceResult result control
  | none => pure result

def landed (outcome : Except E V) (input : Option V) : StateM S (Except E V × V) := do
  let outcome ← values.coloredResult outcome input
  let control ← values.retainResult outcome
  let control ← values.colored control input
  return (outcome, control)

def faulted (fault : Fault) (t : Task V E) : StateM S (Except E V) := do
  let error ← values.error fault
  let result ← values.coloredResult (.error error) t.input
  match t.state with
  | .returning previous | .done previous => do
    let control ← values.retainResult previous
    values.influenceResult result control
  | _ => return result

end Values

namespace Task

def started (t : Task V E) (pc : Nat) (input : V) : Task V E :=
  { t with pc, input := some input, state := .ready }

def returned (t : Task V E) (outcome : Except E V) : Task V E :=
  { t with state := .returning outcome }

def finished (t : Task V E) (next : Option Nat) (result : Except E V) : Task V E :=
  match result, next with
  | .ok value, some pc => t.started pc value
  | .ok value, none => t.returned (.ok value)
  | .error e, _ => t.returned (.error e)

end Task

/-! ## Events that any cell refuses -/

namespace TaskCell

open Simulation

variable {σ : Type} [TaskCell σ S V E] (image : ProgramImage V E) (values : Values S V E) (y : σ)

theorem run_bind_fetch {α : Type} (node : Nat) (f : Node V E → Step σ α) :
    (fetch image node >>= f).run y =
      match image.node node with
      | .error e => (.error e, y)
      | .ok instruction => (f instruction).run y := by
  have hf : (fetch image node : Step σ (Node V E)).run y = (image.node node, y) := rfl
  cases hn : image.node node with
  | error e => exact run_bind_error (hf.trans (by rw [hn]))
  | ok instruction => exact run_bind_ok (hf.trans (by rw [hn]))

theorem run_bind_push {α : Type} (kind : FrameKind V E) (f : Unit → Step σ α) :
    (pushFrame kind >>= f).run y =
      match push kind y with
      | .error e => (.error e, y)
      | .ok y' => (f ()).run y' := by
  cases h : push kind y with
  | error e => exact run_bind_error (by simp only [ExceptT.run, pushFrame, h])
  | ok y' => exact run_bind_ok (by simp only [ExceptT.run, pushFrame, h])

theorem run_deliver_enter (node context : Nat) :
    (deliver image values node (.enter context) : Step σ Unit).run y =
      match image.node node with
      | .error e => (.error e, y)
      | .ok instruction =>
        match instruction.kind with
        | .scope _ body => (enterScope node body context : Step σ Unit).run y
        | _ => (.error .staleEvent, y) := by
  refine (run_bind_fetch image y node _).trans ?_
  cases image.node node with
  | error e => rfl
  | ok instruction =>
    dsimp only
    cases instruction.kind <;> rfl

theorem run_eventControl_continue (node entry : Nat) (input : V) :
    (eventControl image values node (.continue_ entry input) : Step σ _).run y =
      match image.node node with
      | .error e => (.error e, y)
      | .ok instruction =>
        match instruction.kind with
        | .request _ =>
          let control := values.retainControl input (host y)
          (.ok (some control.1), setHost control.2 y)
        | _ => (.error .staleEvent, y) := by
  refine (run_bind_fetch image y node _).trans ?_
  rcases image.node node with e | ⟨kind, next, position⟩
  · rfl
  · cases kind <;> rfl

theorem run_deliver_continue {v : V} (hv : ∀ s, (task (setHost s y)).input = some v)
    (node entry : Nat) (input : V) :
    (deliver image values node (.continue_ entry input) : Step σ Unit).run y =
      match image.node node with
      | .error e => (.error e, y)
      | .ok instruction =>
        match instruction.kind with
        | .request _ =>
          let control := values.retainControl input (host y)
          let y₁ := setHost control.2 y
          let told := values.influence v control.1 (host y₁)
          let y' := setTask { task (setHost told.2 y₁) with input := some told.1 }
            (setHost told.2 y₁)
          match image.node entry with
          | .error e => (.error e, y')
          | .ok _ =>
            match push (.continuation node entry) y' with
            | .error e => (.error e, y')
            | .ok y' => (do
                let input ← influenceInput values input (task y').input
                start entry input : Step σ Unit).run y'
        | _ => (.error .staleEvent, y) := by
  have hev := run_eventControl_continue image values y node entry input
  unfold deliver
  rcases hn : image.node node with e | ⟨kind, next, position⟩
  · rw [hn] at hev
    rw [run_bind_error hev]
  · rw [hn] at hev
    cases kind with
    | request index =>
      refine (run_bind_ok hev).trans ?_
      have hk : (keepControl values (some (values.retainControl input (host y)).1) :
          Step σ Unit).run (setHost (values.retainControl input (host y)).2 y) = _ :=
        run_bind_ok (m := getTask) rfl
      rw [hv] at hk
      refine (run_bind_ok hk).trans ?_
      dsimp only
      generalize (setTask _ _ : σ) = y'
      have he : (discard (fetch image entry) : Step σ PUnit).run y' =
          match image.node entry with
          | .error e => (.error e, y')
          | .ok _ => (.ok ⟨⟩, y') := run_bind_fetch image y' entry _
      cases hn' : image.node entry with
      | error e =>
        rw [hn'] at he
        rw [run_bind_error he]
      | ok target =>
        rw [hn'] at he
        rw [run_bind_ok he, run_bind_push]
        rfl
    | _ => rw [run_bind_error hev]

theorem run_enterScope_refused {e : Fault} (h : check 2 y = .error e) (node body context : Nat) :
    (enterScope node body context : Step σ Unit).run y = (.error e, y) := by
  have hc : (checkFrames 2 : Step σ Unit).run y = (.error e, y) := by
    show (check 2 y, y) = _
    rw [h]
  exact run_bind_error hc

end TaskCell

namespace Local

open TaskCell Simulation

variable (image : ProgramImage V E) (values : Values S V E) (y : Local S V E)

/-! ## Operations -/

@[simp] theorem run_getTask :
    (getTask : Step (Local S V E) (Task V E)).run y = (.ok y.task, y) := rfl

variable {α : Type} {v : V}

theorem run_bind_push (kind : FrameKind V E) (f : Unit → Step (Local S V E) α) :
    (pushFrame kind >>= f).run y =
      if y.stack.length + 1 ≤ y.room then (f ()).run { y with stack := kind :: y.stack }
      else (.error .frames, y) := by
  have hp : TaskCell.push kind y = if y.stack.length + 1 ≤ y.room
    then .ok { y with stack := kind :: y.stack } else .error .frames := rfl
  rw [TaskCell.run_bind_push, hp]
  by_cases h : y.stack.length + 1 ≤ y.room
  · rw [if_pos h, if_pos h]
  · rw [if_neg h, if_neg h]

theorem run_bind_check (count : Nat) (f : Unit → Step (Local S V E) α) :
    (checkFrames count >>= f).run y =
      if y.stack.length + count ≤ y.room then (f ()).run y else (.error .frames, y) := by
  have hc : (checkFrames count : Step (Local S V E) Unit).run y =
      ((if y.stack.length + count ≤ y.room then .ok () else .error .frames), y) := rfl
  split
  next h => exact run_bind_ok (hc.trans (by rw [if_pos h]))
  next h => exact run_bind_error (hc.trans (by rw [if_neg h]))

theorem run_bind_ask {β : Type} (op : StateM S α) (f : α → Step (Local S V E) β) :
    (ask op >>= f).run y = (f (op y.host).1).run { y with host := (op y.host).2 } := rfl

theorem run_influenceInput (value : V) (input : Option V) :
    (influenceInput values value input : Step (Local S V E) V).run y =
      (.ok (values.colored value input y.host).1,
        { y with host := (values.colored value input y.host).2 }) := by
  cases input <;> rfl

theorem run_influenceResult (result : Except E V) :
    (influenceResult values result : Step (Local S V E) (Except E V)).run y =
      (.ok (values.coloredResult result y.task.input y.host).1,
        { y with host := (values.coloredResult result y.task.input y.host).2 }) := by
  have h : (influenceResult values result : Step (Local S V E) (Except E V)).run y =
      (match y.task.input with
        | some control => (ask (values.influenceResult result control) : Step (Local S V E) _)
        | none => pure result).run y := rfl
  rw [h]
  cases y.task.input <;> rfl

theorem faultResult_eq (fault : Fault) :
    (faultResult values fault : StateM (Local S V E) (Except E V)) y =
      ((values.faulted fault y.task y.host).1,
        { y with host := (values.faulted fault y.task y.host).2 }) := by
  obtain ⟨_, ⟨state, _, input⟩⟩ := y
  cases input <;> cases state <;> rfl

theorem run_finish (node : Nat) (result : Except E V) :
    (finish image values node result : Step (Local S V E) Unit).run y =
      match image.node node with
      | .error e => (.error e, y)
      | .ok instruction => (.ok (), { y with
          task := y.task.finished instruction.next
            (values.coloredResult result y.task.input y.host).1
          host := (values.coloredResult result y.task.input y.host).2 }) := by
  unfold finish
  rw [run_bind_fetch]
  cases image.node node with
  | error e => rfl
  | ok instruction =>
    dsimp only
    rw [run_bind_ok (run_influenceResult values y result)]
    cases (values.coloredResult result y.task.input y.host).1 with
    | error e => rfl
    | ok value =>
      obtain ⟨kind, next, position⟩ := instruction
      cases next <;> rfl

/-! ## Returning -/

theorem run_unwind (outcome : Except E V) :
    (unwind image values outcome : Step (Local S V E) Unit).run y =
      let landed := values.landed outcome y.task.input y.host
      let t := { y.task with state := .ready, input := some landed.1.2 }
      match y.stack with
      | [] => (.ok (), { y with task := { t with state := .done landed.1.1 }, host := landed.2 })
      | frame :: rest => (resume image values frame landed.1.1).run
          { y with task := t, host := landed.2, stack := rest } := by
  obtain ⟨_, ⟨_, _, input⟩, stack⟩ := y
  cases input <;> cases stack <;> rfl

def cleanedResult (original outcome : Except E V) : Except E V :=
  match original, outcome with
  | .error e, _ => .error e
  | .ok _, .error e => .error e
  | .ok value, .ok _ => .ok value

/-! ## Dispatching -/

theorem run_enter_ok (frames : List (FrameKind V E)) (pc : Nat) (input : V)
    (h : y.stack.length + frames.length ≤ y.room) :
    (enter frames pc input : Step (Local S V E) (Signal V)).run y =
      (.ok .idle, { y with
        stack := frames.reverse ++ y.stack, task := y.task.started pc input }) := by
  induction frames generalizing y with
  | nil => rfl
  | cons frame frames ih =>
    rw [length_cons] at h
    rw [enter, run_bind_push, if_pos (by omega), ih _ (by simp only [length_cons]; omega)]
    simp

theorem run_enter_error (frames : List (FrameKind V E)) (pc : Nat) (input : V)
    (hne : frames ≠ []) (h : y.room < y.stack.length + frames.length) :
    (enter frames pc input : Step (Local S V E) (Signal V)).run y =
      (.error .frames, { y with
        stack := (frames.take (y.room - y.stack.length)).reverse ++ y.stack }) := by
  induction frames generalizing y with
  | nil => exact absurd rfl hne
  | cons frame frames ih =>
    rw [length_cons] at h
    rw [enter, run_bind_push]
    by_cases hf : y.stack.length + 1 ≤ y.room
    · have hne' : frames ≠ [] := by
        rintro rfl
        simp only [length_nil] at h
        omega
      rw [if_pos hf, ih _ hne' (by simp only [length_cons]; omega)]
      have hs : y.room - y.stack.length = (y.room - (y.stack.length + 1)) + 1 := by omega
      simp only [length_cons, hs, take_succ_cons, reverse_cons, append_assoc, singleton_append]
    · rw [if_neg hf]
      have hs : y.room - y.stack.length = 0 := by omega
      simp [hs]

theorem run_emit (node : Node V E) (pc index : Nat) (input : V) :
    (emit image node pc index input : Step (Local S V E) (Signal V)).run y =
      if image.imports ≤ index then (.error .invalidImport, y)
      else if y.ticket = Word.u64Max then (.error .sequenceExhausted, y)
      else (.ok (.request {
          task := y.index, ticket := y.ticket + 1, index, input, context := y.task.context
          position := node.position, cleanup := decide (0 < y.task.cleaning) }),
        { y with
          task := { y.task with state := .waiting (y.ticket + 1) pc }
          ticket := y.ticket + 1 }) := by
  have htk : (nextTicket : Step (Local S V E) Nat).run y =
      if y.ticket = Word.u64Max then (.error .sequenceExhausted, y)
      else (.ok (y.ticket + 1), { y with ticket := y.ticket + 1 }) := rfl
  unfold emit
  by_cases hn : image.imports ≤ index
  · simp only [hn]
    rfl
  · simp only [hn, if_false]
    by_cases ht : y.ticket = Word.u64Max
    · rw [if_pos ht] at htk ⊢
      rw [run_bind_error htk]
    · rw [if_neg ht] at htk ⊢
      rw [run_bind_ok htk]
      rfl

theorem run_loadBinding (slot : Nat) :
    (loadBinding slot : Step (Local S V E) V).run y =
      ((if y.bindingsPerTask ≤ slot then .error .invalidBinding
        else match (TaskCell.binding slot y : Option V) with
          | some value => .ok value
          | none => .error .missingBinding), y) := by
  have hl : (limit : Step (Local S V E) Nat).run y = (.ok y.bindingsPerTask, y) := rfl
  have hg : (getBinding slot : Step (Local S V E) (Option V)).run y =
      (.ok (TaskCell.binding slot y), y) := rfl
  unfold loadBinding
  rw [run_bind_ok hl]
  by_cases hn : y.bindingsPerTask ≤ slot
  · simp only [hn]
    rfl
  · simp only [hn, if_false]
    rw [run_bind_ok hg]
    cases (TaskCell.binding slot y : Option V) <;> rfl

def retained (node : Node V E) (input : V) : StateM S V :=
  match node.kind with
  | .request _ => pure input
  | .scope _ _ => pure input
  | _ => values.retainControl input

theorem run_dispatch : (dispatch image values : Step (Local S V E) (Signal V)).run y =
    match image.node y.task.pc with
    | .error e => (.error e, y)
    | .ok node =>
      match y.task.input with
      | none => (.error .type, y)
      | some input =>
        let kept := retained values node input y.host
        (dispatchKind image values node y.task.pc input).run
          { y with task := { y.task with input := some kept.1 }, host := kept.2 } := by
  unfold dispatch
  rw [run_bind_ok (run_getTask y), run_bind_fetch]
  cases image.node y.task.pc with
  | error e => rfl
  | ok node =>
    cases y.task.input with
    | none => rfl
    | some input =>
      obtain ⟨kind, next, position⟩ := node
      cases kind <;> rfl

/-! ## Host events -/

def informed (input control : V) : Local S V E :=
  { y with
    task := { y.task with input := some (values.influence input control y.host).1 }
    host := (values.influence input control y.host).2 }

theorem run_keepControl (hv : y.task.input = some v) (control : V) :
    (keepControl values (some control) : Step (Local S V E) Unit).run y =
      (.ok (), informed values y v control) := by
  obtain ⟨_, ⟨_, _, input⟩⟩ := y
  obtain rfl : input = some v := hv
  rfl

theorem run_enterScope (hv : y.task.input = some v) (node body context : Nat) :
    (enterScope node body context : Step (Local S V E) Unit).run y =
      if y.stack.length + 2 ≤ y.room then
        (.ok (), { y with
          stack := .context y.task.context :: .finish node :: y.stack
          task := { y.task with context }.started body v })
      else (.error .frames, y) := by
  unfold enterScope
  rw [run_bind_check]
  by_cases h : y.stack.length + 2 ≤ y.room
  · rw [if_pos h, if_pos h, run_bind_push, if_pos (by omega), run_bind_ok (run_getTask _),
      run_bind_push, if_pos (by exact h)]
    obtain ⟨_, ⟨_, _, input⟩⟩ := y
    obtain rfl : input = some v := hv
    rfl
  · rw [if_neg h, if_neg h]

theorem run_deliver_complete (hv : y.task.input = some v) (node : Nat) (result : Except E V) :
    (deliver image values node (.complete result) : Step (Local S V E) Unit).run y =
      let control := values.retainResult result y.host
      (finish image values node result).run
        (informed values { y with host := control.2 } v control.1) := by
  have hev : (eventControl image values node (.complete result) : Step (Local S V E) _).run y =
      (.ok (some (values.retainResult result y.host).1),
        { y with host := (values.retainResult result y.host).2 }) := rfl
  have hk := run_keepControl values { y with host := (values.retainResult result y.host).2 } hv
    (values.retainResult result y.host).1
  unfold deliver
  rw [run_bind_ok hev, run_bind_ok hk]

end Local
end Xolotl.Core
