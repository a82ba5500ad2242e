import Xolotl.Lib.Simulation
import Xolotl.Core.Transition

/-! Two cells side by side. Where the operations of two cells answer alike, the
transitions of a task do so too; some faults of the first cell may end the
comparison. -/

namespace Xolotl.Core

def FrameKind.slot {V E : Type} : FrameKind V E → Option Nat
  | .bind slot _ => some slot
  | .unbind slot _ => some slot
  | _ => none

def NodeKind.slot {V E : Type} : NodeKind V E → Option Nat
  | .load slot => some slot
  | .let_ slot _ _ => some slot
  | _ => none

def ProgramImage.Slots {V E : Type} (image : ProgramImage V E) (known : Nat → Prop) : Prop :=
  ∀ pc node, image.node pc = .ok node → ∀ slot, node.kind.slot = some slot → known slot

section

variable {σ τ S V E : Type} [TaskCell σ S V E] [TaskCell τ S V E]

open TaskCell Simulation

/-- The operations of two cells answer alike and keep them related, for `known` slots
and unless the first cell gives a `lax` fault. -/
structure Mirrors (lax : Fault → Prop) (known : Nat → Prop) (R : σ → τ → Prop) : Prop where
  index : ∀ {x y}, R x y → index x = index y
  task : ∀ {x y}, R x y → task x = task y
  setTask : ∀ {x y}, R x y → ∀ t : Task V E, R (setTask t x) (setTask t y)
  push : ∀ {x y}, R x y → ∀ kind : FrameKind V E, (∀ slot, kind.slot = some slot → known slot) →
    (∃ e, lax e ∧ push kind x = .error e) ∨
    (∃ e, push kind x = .error e ∧ push kind y = .error e) ∨
    ∃ x' y', push kind x = .ok x' ∧ push kind y = .ok y' ∧ R x' y'
  pop : ∀ {x y}, R x y → (pop x).1 = (pop y).1 ∧ R (pop x).2 (pop y).2 ∧
    ∀ frame, (pop x).1 = some frame → ∀ slot, frame.slot = some slot → known slot
  check : ∀ {x y}, R x y → ∀ count, (∃ e, lax e ∧ check count x = .error e) ∨
    check count x = check count y
  limited : ∀ {x y}, R x y → ∀ slot, known slot →
    (bindingsPerTask x ≤ slot ↔ bindingsPerTask y ≤ slot)
  binding : ∀ {x y}, R x y → ∀ slot, known slot → binding slot x = binding slot y
  setBinding : ∀ {x y}, R x y → ∀ slot, known slot → ∀ value : Option V,
    R (setBinding slot value x) (setBinding slot value y)
  ticket : ∀ {x y}, R x y → ticket x = ticket y
  setTicket : ∀ {x y}, R x y → ∀ n, R (setTicket n x) (setTicket n y)
  host : ∀ {x y}, R x y → host x = host y
  setHost : ∀ {x y}, R x y → ∀ s, R (setHost s x) (setHost s y)

namespace Mirrors

variable {lax : Fault → Prop} {known : Nat → Prop} {R : σ → τ → Prop}
  (h : Mirrors lax known R) {α : Type}
include h

theorem follows_ask (op : StateM S α) : Follows lax R (ask op : Step σ α) (ask op) := by
  refine .modifyGet fun x y hxy => ?_
  simp only [h.host hxy]
  exact ⟨trivial, h.setHost hxy _⟩

theorem follows_getTask : Follows lax R (getTask : Step σ (Task V E)) getTask :=
  .modifyGet fun _ _ hxy => ⟨h.task hxy, hxy⟩

theorem follows_modifyTask (f : Task V E → Task V E) :
    Follows lax R (modifyTask f : Step σ Unit) (modifyTask f) := by
  refine .modifyGet fun x y hxy => ⟨rfl, ?_⟩
  simp only [h.task hxy]
  exact h.setTask hxy _

theorem follows_popFrame : Follows lax R (popFrame : Step σ (Option (FrameKind V E))) popFrame :=
  .modifyGet fun _ _ hxy => ⟨(h.pop hxy).1, (h.pop hxy).2.1⟩

theorem follows_pushFrame (kind : FrameKind V E) (hk : ∀ slot, kind.slot = some slot → known slot) :
    Follows lax R (pushFrame kind : Step σ Unit) (pushFrame kind) := by
  intro x y hxy
  simp only [ExceptT.run, pushFrame]
  rcases h.push hxy kind hk with ⟨e, he, hx⟩ | ⟨e, hx, hy⟩ | ⟨x', y', hx, hy, hxy'⟩
  · rw [hx]
    exact .inl ⟨e, he, rfl⟩
  · rw [hx, hy]
    exact .inr ⟨rfl, hxy⟩
  · rw [hx, hy]
    exact .inr ⟨rfl, hxy'⟩

theorem follows_pushPlain {kind : FrameKind V E} (hk : kind.slot = none) :
    Follows lax R (pushFrame kind : Step σ Unit) (pushFrame kind) := by
  refine h.follows_pushFrame kind fun slot hs => ?_
  rw [hk] at hs
  cases hs

theorem follows_checkFrames (count : Nat) :
    Follows lax R (checkFrames count : Step σ Unit) (checkFrames count) :=
  fun _ _ hxy => (h.check hxy count).imp id fun heq => ⟨heq, hxy⟩

theorem follows_getIndex : Follows lax R (getIndex : Step σ Nat) getIndex :=
  .modifyGet fun _ _ hxy => ⟨h.index hxy, hxy⟩

variable {slot : Nat}

theorem follows_getBinding (hs : known slot) :
    Follows lax R (getBinding slot : Step σ (Option V)) (getBinding slot) :=
  .modifyGet fun _ _ hxy => ⟨h.binding hxy slot hs, hxy⟩

theorem follows_putBinding (hs : known slot) (value : Option V) :
    Follows lax R (putBinding slot value : Step σ Unit) (putBinding slot value) :=
  .modifyGet fun _ _ hxy => ⟨rfl, h.setBinding hxy slot hs value⟩

theorem follows_nextTicket : Follows lax R (nextTicket : Step σ Nat) nextTicket := by
  intro x y hxy
  simp only [ExceptT.run, nextTicket, h.ticket hxy]
  split
  · exact .inr ⟨rfl, hxy⟩
  · exact .inr ⟨rfl, h.setTicket hxy _⟩

variable (image : ProgramImage V E) (values : Values S V E) (node : Nat)

omit h in
theorem follows_fetch : Follows lax R (fetch image node : Step σ (Node V E)) (fetch image node) :=
  fun _ _ hxy => .inr ⟨rfl, hxy⟩

theorem follows_influenceInput (value : V) (input : Option V) :
    Follows lax R (influenceInput values value input : Step σ V)
      (influenceInput values value input) := by
  cases input with
  | none => exact .pure value
  | some input => exact h.follows_ask _

theorem follows_influenceResult (result : Except E V) :
    Follows lax R (influenceResult values result : Step σ (Except E V))
      (influenceResult values result) := by
  refine h.follows_getTask.bind fun t => ?_
  cases t.input with
  | none => exact .pure result
  | some control => exact h.follows_ask _

theorem follows_finish (result : Except E V) :
    Follows lax R (finish image values node result : Step σ Unit)
      (finish image values node result) := by
  refine (follows_fetch image node).bind fun instruction => ?_
  refine (h.follows_influenceResult values result).bind fun result => ?_
  cases result with
  | error e => exact h.follows_modifyTask _
  | ok value =>
    dsimp only
    cases instruction.next with
    | none | some next => exact h.follows_modifyTask _

theorem follows_resumeCatch (recover : Nat) (outcome : Except E V) :
    Follows lax R (resumeCatch values recover outcome : Step σ Unit)
      (resumeCatch values recover outcome) := by
  refine h.follows_getTask.bind fun t => ?_
  cases outcome with
  | ok value => exact h.follows_modifyTask _
  | error e =>
    by_cases hc : t.cancelled = false ∨ 0 < t.cleaning
    · simp only [hc]
      refine (h.follows_ask _).bind fun value => ?_
      exact (h.follows_influenceInput values value t.input).bind fun _ => h.follows_modifyTask _
    · simp only [hc]
      exact h.follows_modifyTask _

theorem follows_resumeCleaned (original outcome : Except E V) :
    Follows lax R (resumeCleaned values original outcome : Step σ Unit)
      (resumeCleaned values original outcome) := by
  refine (h.follows_modifyTask _).bind fun _ => ?_
  exact (h.follows_ask _).bind fun _ => (h.follows_ask _).bind fun _ => h.follows_modifyTask _

theorem follows_resumeChoose (yes no : Nat) (input : V) (outcome : Except E V) :
    Follows lax R (resumeChoose values yes no input outcome : Step σ Unit)
      (resumeChoose values yes no input outcome) := by
  cases outcome with
  | error e => exact h.follows_modifyTask _
  | ok test =>
    refine (h.follows_ask _).bind fun truth => ?_
    cases truth with
    | error e => exact h.follows_modifyTask _
    | ok truth => exact (h.follows_ask _).bind fun _ => h.follows_modifyTask _

theorem follows_limited (hs : known slot) {f : Step σ α} {g : Step τ α}
    (hf : Follows lax R f g) :
    Follows lax R (do if (← limit) ≤ slot then throw .invalidBinding else f : Step σ α)
      (do if (← limit) ≤ slot then throw .invalidBinding else g : Step τ α) := by
  intro x y hxy
  have hx : (limit : Step σ Nat).run x = (.ok (bindingsPerTask x), x) := rfl
  have hy : (limit : Step τ Nat).run y = (.ok (bindingsPerTask y), y) := rfl
  rw [run_bind_ok hx, run_bind_ok hy]
  by_cases hl : bindingsPerTask x ≤ slot
  · rw [if_pos hl, if_pos ((h.limited hxy slot hs).mp hl)]
    exact .inr ⟨rfl, hxy⟩
  · rw [if_neg hl, if_neg (mt (h.limited hxy slot hs).mpr hl)]
    exact hf x y hxy

theorem follows_resumeBind (hs : known slot) (body : Nat) (outcome : Except E V) :
    Follows lax R (resumeBind slot body outcome : Step σ Unit) (resumeBind slot body outcome) := by
  cases outcome with
  | error e => exact h.follows_modifyTask _
  | ok value =>
    refine h.follows_limited hs ?_
    refine (h.follows_checkFrames 1).bind fun _ => ?_
    refine (h.follows_getBinding hs).bind fun previous => ?_
    refine (h.follows_putBinding hs none).bind fun _ => ?_
    refine (h.follows_pushFrame _ ?_).bind fun _ => ?_
    · rintro _ ⟨⟩
      exact hs
    · exact (h.follows_putBinding hs _).bind fun _ => h.follows_modifyTask _

theorem follows_resumeCondition (condition body left : Nat) (value : V) (outcome : Except E V) :
    Follows lax R (resumeCondition values condition body left value outcome : Step σ Unit)
      (resumeCondition values condition body left value outcome) := by
  cases outcome with
  | error e => exact h.follows_modifyTask _
  | ok test =>
    refine (h.follows_ask _).bind fun truth => ?_
    rcases truth with e | truth
    · exact h.follows_modifyTask _
    · cases truth with
      | false => exact (h.follows_ask _).bind fun _ => h.follows_modifyTask _
      | true =>
        by_cases hl : 0 < left
        · simp only [hl]
          refine (h.follows_pushPlain rfl).bind fun _ => ?_
          exact (h.follows_ask _).bind fun _ => h.follows_modifyTask _
        · simp only [hl]
          exact (h.follows_ask _).bind fun _ => h.follows_modifyTask _

theorem follows_resume (frame : FrameKind V E) (hf : ∀ slot, frame.slot = some slot → known slot)
    (outcome : Except E V) : Follows lax R (resume image values frame outcome : Step σ Unit)
      (resume image values frame outcome) := by
  cases frame with
  | vacant => exact .throw _
  | finish node | continuation node _ => exact h.follows_finish image values node outcome
  | then_ next => cases outcome <;> exact h.follows_modifyTask _
  | catch_ recover => exact h.follows_resumeCatch values recover outcome
  | finally_ cleanup input =>
    refine (h.follows_pushPlain rfl).bind fun _ => ?_
    exact (h.follows_modifyTask _).bind fun _ => h.follows_modifyTask _
  | cleaned original => exact h.follows_resumeCleaned values original outcome
  | context context => exact (h.follows_modifyTask _).bind fun _ => h.follows_modifyTask _
  | choose yes no input => exact h.follows_resumeChoose values yes no input outcome
  | bind slot body => exact h.follows_resumeBind (hf slot rfl) body outcome
  | unbind slot previous =>
    exact (h.follows_putBinding (hf slot rfl) previous).bind fun _ => h.follows_modifyTask _
  | condition condition body left value =>
    exact h.follows_resumeCondition values condition body left value outcome
  | iteration condition body left =>
    cases outcome with
    | error e => exact h.follows_modifyTask _
    | ok value => exact (h.follows_pushPlain rfl).bind fun _ => h.follows_modifyTask _

theorem follows_unwind (outcome : Except E V) :
    Follows lax R (unwind image values outcome : Step σ Unit) (unwind image values outcome) := by
  refine (h.follows_modifyTask _).bind fun _ => ?_
  refine (h.follows_influenceResult values outcome).bind fun outcome => ?_
  refine (h.follows_ask _).bind fun control => ?_
  refine h.follows_getTask.bind fun t => ?_
  refine (h.follows_influenceInput values control t.input).bind fun control => ?_
  refine (h.follows_modifyTask _).bind fun _ => ?_
  refine h.follows_popFrame.bind_of
    (P := fun popped => ∀ frame, popped = some frame → ∀ slot, frame.slot = some slot → known slot)
    (fun x y hxy popped hp => ?_) fun frame hf => ?_
  · exact fun frame hf => (h.pop hxy).2.2 frame ((Except.ok.inj hp).trans hf)
  · cases frame with
    | none => exact h.follows_modifyTask _
    | some frame => exact h.follows_resume image values frame (hf frame rfl) outcome

theorem follows_enter {frames : List (FrameKind V E)}
    (hf : ∀ frame ∈ frames, ∀ slot, frame.slot = some slot → known slot) (pc : Nat)
    (input : V) : Follows lax R (enter frames pc input : Step σ (Signal V))
      (enter frames pc input) := by
  induction frames with
  | nil => exact (h.follows_modifyTask _).bind fun _ => .pure _
  | cons frame frames ih =>
    refine (h.follows_pushFrame frame (hf frame List.mem_cons_self)).bind fun _ => ih ?_
    exact fun frame hm => hf frame (List.mem_cons_of_mem _ hm)

theorem follows_emit (node : Node V E) (pc index : Nat) (input : V) :
    Follows lax R (emit image node pc index input : Step σ (Signal V))
      (emit image node pc index input) := by
  unfold emit
  by_cases hn : image.imports ≤ index
  · simp only [hn]
    exact .throw _
  · simp only [hn]
    refine h.follows_nextTicket.bind fun ticket => ?_
    refine (h.follows_modifyTask _).bind fun _ => ?_
    exact h.follows_getTask.bind fun t => h.follows_getIndex.bind fun _ => .pure _

theorem follows_loadBinding (hs : known slot) :
    Follows lax R (loadBinding slot : Step σ V) (loadBinding slot) := by
  refine h.follows_limited hs ((h.follows_getBinding hs).bind fun value => ?_)
  cases value with
  | none => exact .throw _
  | some value => exact .pure value

theorem follows_finish_idle (result : Except E V) : Follows lax R
      (do finish image values node result; return .idle : Step σ (Signal V))
      (do finish image values node result; return .idle) :=
  (h.follows_finish image values node result).bind fun _ => .pure _

theorem follows_dispatchKind {node : Node V E}
    (hs : ∀ slot, node.kind.slot = some slot → known slot) (pc : Nat) (input : V) :
    Follows lax R (dispatchKind image values node pc input : Step σ (Signal V))
      (dispatchKind image values node pc input) := by
  unfold dispatchKind
  cases hk : node.kind with
  | literal value => exact (h.follows_ask _).bind fun _ => h.follows_finish_idle image values pc _
  | input => exact h.follows_finish_idle image values pc _
  | load slot =>
    refine (h.follows_loadBinding (hs slot (by rw [hk]; rfl))).bind fun value => ?_
    exact (h.follows_ask _).bind fun _ => h.follows_finish_idle image values pc _
  | fail e => exact h.follows_finish_idle image values pc _
  | request index | scope index body => exact h.follows_emit image node pc index input
  | if_ yes no =>
    refine (h.follows_ask _).bind fun test => ?_
    cases test with
    | error e => exact h.follows_finish_idle image values pc _
    | ok test => exact h.follows_enter (by simp [FrameKind.slot]) _ input
  | let_ slot value body =>
    refine h.follows_enter (fun frame hm => ?_) value input
    rcases List.mem_pair.mp hm with rfl | rfl
    · exact nofun
    · rintro _ ⟨⟩
      exact hs slot (by rw [hk]; rfl)
  | fork left right join => exact .pure _
  | _ => exact h.follows_enter (by simp [FrameKind.slot]) _ input

theorem follows_dispatch (hs : image.Slots known) :
    Follows lax R (dispatch image values : Step σ (Signal V)) (dispatch image values) := by
  refine h.follows_getTask.bind fun t => ?_
  refine (follows_fetch image t.pc).bind_of
    (P := fun node => ∀ slot, node.kind.slot = some slot → known slot)
    (fun x y _ node hn => hs t.pc node hn) fun node hno => ?_
  cases t.input with
  | none => exact .throw _
  | some input =>
    refine Follows.bind ?_ fun retained => ?_
    · unfold retainedInput
      cases node.kind <;> first | exact Follows.pure _ | exact h.follows_ask _
    · exact (h.follows_modifyTask _).bind fun _ => h.follows_dispatchKind image values hno _ _

theorem follows_eventControl (event : HostEvent V E) :
    Follows lax R (eventControl image values node event : Step σ (Option V))
      (eventControl image values node event) := by
  cases event with
  | complete result => exact (h.follows_ask _).bind fun _ => .pure _
  | enter context => exact .pure _
  | continue_ entry input =>
    refine (follows_fetch image node).bind fun instruction => ?_
    cases instruction.kind <;>
      first | exact Follows.throw _ | exact (h.follows_ask _).bind fun _ => .pure _

theorem follows_keepControl (control : Option V) :
    Follows lax R (keepControl values control : Step σ Unit) (keepControl values control) := by
  cases control with
  | none => exact .pure _
  | some control =>
    refine h.follows_getTask.bind fun t => ?_
    cases t.input with
    | none => exact h.follows_modifyTask _
    | some input => exact (h.follows_ask _).bind fun _ => h.follows_modifyTask _

theorem follows_enterScope (node body context : Nat) :
    Follows lax R (enterScope node body context : Step σ Unit) (enterScope node body context) := by
  refine (h.follows_checkFrames 2).bind fun _ => ?_
  refine (h.follows_pushPlain rfl).bind fun _ => ?_
  refine h.follows_getTask.bind fun t => ?_
  refine (h.follows_pushPlain rfl).bind fun _ => ?_
  refine (h.follows_modifyTask _).bind fun _ => ?_
  refine h.follows_getTask.bind fun t => ?_
  refine (h.follows_modifyTask _).bind fun _ => ?_
  cases t.input with
  | none => exact .throw _
  | some input => exact h.follows_modifyTask _

theorem follows_deliver (event : HostEvent V E) :
    Follows lax R (deliver image values node event : Step σ Unit)
      (deliver image values node event) := by
  refine (h.follows_eventControl image values node event).bind fun control => ?_
  refine (h.follows_keepControl values control).bind fun _ => ?_
  cases event with
  | complete result => exact h.follows_finish image values node result
  | enter context =>
    refine (follows_fetch image node).bind fun instruction => ?_
    cases instruction.kind <;>
      first | exact Follows.throw _ | exact h.follows_enterScope node _ context
  | continue_ entry input =>
    refine ((follows_fetch image entry).bind fun _ => .pure _).bind fun _ => ?_
    refine (h.follows_pushPlain rfl).bind fun _ => ?_
    refine h.follows_getTask.bind fun t => ?_
    exact (h.follows_influenceInput values input t.input).bind fun _ => h.follows_modifyTask _

theorem sim_ask (op : StateM S α) : Sim R (ask op : StateM σ α) (ask op) := by
  refine Sim.modifyGet fun x y hxy => ?_
  simp only [h.host hxy]
  exact ⟨trivial, h.setHost hxy _⟩

theorem sim_getTask : Sim R (getTask : StateM σ (Task V E)) getTask :=
  Sim.modifyGet fun _ _ hxy => ⟨h.task hxy, hxy⟩

theorem sim_faultResult (fault : Fault) :
    Sim R (faultResult values fault : StateM σ (Except E V)) (faultResult values fault) := by
  refine Sim.bind (h.sim_ask _) fun error => ?_
  refine Sim.bind (Sim.bind h.sim_getTask fun t => ?_) fun result => ?_
  · cases t.input with
    | none => exact Sim.pure _
    | some control => exact h.sim_ask _
  · refine Sim.bind h.sim_getTask fun t => ?_
    cases t.state <;>
      first | exact Sim.pure _ | exact Sim.bind (h.sim_ask _) fun _ => h.sim_ask _

end Mirrors
end
end Xolotl.Core
