import Xolotl.Core.Machine
import Xolotl.Core.Mirror

/-! One task on its own. A `Local` holds just what the transitions of a task work
on, with its frames as a plain list; running a task inside a machine is running
it on its own and writing the result back. -/

namespace Xolotl.Core

structure Local (S V E : Type) where
  index : Nat
  task : Task V E
  stack : List (FrameKind V E)
  room : Nat
  bindingsPerTask : Nat
  bindings : List (Option V)
  ticket : Nat
  host : S

instance {S V E : Type} : TaskCell (Local S V E) S V E where
  index x := x.index
  task x := x.task
  setTask t x := { x with task := t }
  push kind x :=
    if x.stack.length + 1 ≤ x.room then .ok { x with stack := kind :: x.stack }
    else .error .frames
  pop x := (x.stack.head?, { x with stack := x.stack.tail })
  check count x := if x.stack.length + count ≤ x.room then .ok () else .error .frames
  bindingsPerTask x := x.bindingsPerTask
  binding slot x := (x.bindings[x.index * x.bindingsPerTask + slot]?).getD none
  setBinding slot value x :=
    { x with bindings := x.bindings.set (x.index * x.bindingsPerTask + slot) value }
  ticket x := x.ticket
  setTicket ticket x := { x with ticket }
  host x := x.host
  setHost host x := { x with host }

variable {S V E : Type}

/-- The depth that the stack of task `i` may reach while the others stand still. -/
def Execution.room (x : Execution V E) (i : Nat) : Nat :=
  min x.limits.framesPerTask (x.frames.capacity + (x.frames.stack i).length - x.frames.live)

def Machine.view (x : Machine S V E) (i : Nat) : Local S V E where
  index := i
  task := x.exec.task i
  stack := x.exec.frames.stack i
  room := x.exec.room i
  bindingsPerTask := x.exec.limits.bindingsPerTask
  bindings := x.exec.bindings
  ticket := x.exec.ticket
  host := x.host

/-- `x` is `base` with its task `i` as `y` has it. -/
structure Views (base : Execution V E) (i : Nat) (x : Focus S V E) (y : Local S V E) : Prop where
  index : x.index = i
  local_index : y.index = i
  exec : x.exec = { base with
    tasks := base.tasks.set i y.task, frames := x.exec.frames, bindings := y.bindings,
    ticket := y.ticket }
  frames : base.frames.Sets x.exec.frames i y.stack
  room : y.room = base.room i
  bindingsPerTask : y.bindingsPerTask = base.limits.bindingsPerTask
  host : x.host = y.host

theorem Frames.Sets.fits_iff {f f' : Frames V E} {i : Nat} {frames : List (FrameKind V E)}
    (h : f.Sets f' i frames) (count maxDepth : Nat) : f'.Fits i count maxDepth ↔
      frames.length + count ≤ min maxDepth (f.capacity + (f.stack i).length - f.live) := by
  have hl := h.live
  have hle' := f'.live_le
  rw [Frames.Fits, h.stack, Function.update_self, h.capacity, Nat.le_min]
  rw [h.capacity] at hle'
  constructor <;> rintro ⟨h₁, h₂⟩ <;> exact ⟨h₁, by omega⟩

section Operations

variable {base : Execution V E} {i : Nat} {x : Focus S V E} {y : Local S V E} (h : Views base i x y)
include h

theorem Views.setTask (t : Task V E) :
    Views base i (TaskCell.setTask t x) (TaskCell.setTask t y) := by
  refine ⟨h.index, h.local_index, ?_, h.frames, h.room, h.bindingsPerTask, h.host⟩
  show x.exec.setTask x.index t = _
  rw [Execution.setTask, h.exec, h.index]
  simp only [List.set_set]
  rfl

theorem Views.setTicket (n : Nat) :
    Views base i (TaskCell.setTicket n x) (TaskCell.setTicket n y) := by
  refine ⟨h.index, h.local_index, ?_, h.frames, h.room, h.bindingsPerTask, h.host⟩
  show { x.exec with ticket := n } = _
  rw [h.exec]
  rfl

theorem Views.ticket : TaskCell.ticket x = TaskCell.ticket y := by
  show x.exec.ticket = y.ticket
  rw [h.exec]

theorem Views.limit : TaskCell.bindingsPerTask x = TaskCell.bindingsPerTask y := by
  show x.exec.limits.bindingsPerTask = y.bindingsPerTask
  rw [h.exec, h.bindingsPerTask]

theorem Views.binding (slot : Nat) : TaskCell.binding slot x = TaskCell.binding slot y := by
  show x.exec.binding x.index slot = _
  rw [Execution.binding, Execution.bindingIndex, h.exec, h.index]
  show _ = (y.bindings[y.index * y.bindingsPerTask + slot]?).getD none
  rw [h.local_index, h.bindingsPerTask]

theorem Views.setBinding (slot : Nat) (value : Option V) :
    Views base i (TaskCell.setBinding slot value x) (TaskCell.setBinding slot value y) := by
  refine ⟨h.index, h.local_index, ?_, h.frames, h.room, h.bindingsPerTask, h.host⟩
  show x.exec.setBinding x.index slot value = { base with
    tasks := base.tasks.set i y.task, frames := x.exec.frames,
    bindings := y.bindings.set (y.index * y.bindingsPerTask + slot) value, ticket := y.ticket }
  rw [Execution.setBinding, Execution.bindingIndex, h.exec, h.index, h.local_index,
    h.bindingsPerTask]

theorem Views.fits_iff (count : Nat) :
    x.exec.frames.Fits x.index count x.exec.limits.framesPerTask ↔
      y.stack.length + count ≤ y.room := by
  rw [h.index, h.room, Execution.room, ← h.frames.fits_iff, h.exec]

theorem Views.check (count : Nat) : TaskCell.check count x = TaskCell.check count y := by
  show x.exec.frames.check x.index count x.exec.limits.framesPerTask =
    if y.stack.length + count ≤ y.room then .ok () else .error .frames
  rw [Frames.check_eq]
  simp only [h.fits_iff]

theorem Views.setFrames {frames : Frames V E}
    {stack : List (FrameKind V E)} (hs : x.exec.frames.Sets frames i stack) :
    Views base i (x.mapExec fun e => { e with frames }) { y with stack } := by
  refine ⟨h.index, h.local_index, ?_, h.frames.trans hs, h.room, h.bindingsPerTask, h.host⟩
  show { x.exec with frames } = _
  rw [h.exec]
  rfl

theorem Views.pop : (TaskCell.pop x).1 = (TaskCell.pop y).1 ∧
    Views base i (TaskCell.pop x).2 (TaskCell.pop y).2 := by
  obtain rfl := h.index
  have hst : x.exec.frames.stack x.index = y.stack := by
    rw [h.frames.stack, Function.update_self]
  obtain ⟨hk, hs⟩ := x.exec.frames.pop_eq x.index
  rw [hst] at hk hs
  exact ⟨hk, h.setFrames hs⟩

theorem Views.push (kind : FrameKind V E) :
    (∃ x' y', TaskCell.push kind x = .ok x' ∧ TaskCell.push kind y = .ok y' ∧ Views base i x' y') ∨
    (TaskCell.push kind x = .error .frames ∧ TaskCell.push kind y = .error .frames) := by
  have hst : x.exec.frames.stack x.index = y.stack := by
    rw [h.index, h.frames.stack, Function.update_self]
  by_cases hf : y.stack.length + 1 ≤ y.room
  · obtain ⟨frames, hp, hs⟩ := Frames.push_ok kind ((h.fits_iff 1).mpr hf)
    rw [hst, h.index] at hs
    refine .inl ⟨x.mapExec fun e => { e with frames }, { y with stack := kind :: y.stack },
      ?_, if_pos hf, h.setFrames hs⟩
    show (x.exec.frames.push x.index kind x.exec.limits.framesPerTask).map _ = _
    rw [hp]
    rfl
  · have hp := Frames.push_error kind (mt (h.fits_iff 1).mp hf)
    refine .inr ⟨?_, if_neg hf⟩
    show (x.exec.frames.push x.index kind x.exec.limits.framesPerTask).map _ = _
    rw [hp]
    rfl

end Operations

/-! ## Programs -/

section Programs

open Simulation TaskCell

variable {base : Execution V E} {i : Nat} {α : Type}

/-- Code of one task that cannot tell a machine from the task on its own. -/
abbrev Agrees (base : Execution V E) (i : Nat) (m : Step (Focus S V E) α)
    (n : Step (Local S V E) α) : Prop :=
  SimE (Views base i) m n

theorem mirrors_views (hi : i < base.tasks.length) :
    Mirrors (fun _ => False) (fun _ => True) (Views (S := S) base i) where
  index h := h.index.trans h.local_index.symm
  task h := by
    show Execution.task _ _ = Local.task _
    rw [h.exec, h.index]
    simp [Execution.task, List.getElem?_set_self hi]
  setTask h := h.setTask
  push h kind _ := by
    rcases h.push kind with ⟨x', y', hx, hy, hv⟩ | ⟨hx, hy⟩
    · exact .inr (.inr ⟨x', y', hx, hy, hv⟩)
    · exact .inr (.inl ⟨_, hx, hy⟩)
  pop h := ⟨h.pop.1, h.pop.2, fun _ _ _ _ => trivial⟩
  check h count := .inr (h.check count)
  limited h slot _ := by rw [h.limit]
  binding h slot _ := h.binding slot
  setBinding h slot _ := h.setBinding slot
  ticket h := h.ticket
  setTicket h := h.setTicket
  host h := h.host
  setHost h _ := ⟨h.index, h.local_index, h.exec, h.frames, h.room, h.bindingsPerTask, rfl⟩

variable (image : ProgramImage V E) (values : Values S V E)

theorem agrees_deliver (hi : i < base.tasks.length) (node : Nat) (event : HostEvent V E) :
    Agrees base i (deliver image values node event : Step (Focus S V E) Unit)
      (deliver image values node event) :=
  ((mirrors_views hi).follows_deliver image values node event).simE

end Programs

/-! ## A machine runs its tasks as if on their own -/

def Machine.put (x : Machine S V E) (y : Local S V E) (frames : Frames V E) : Machine S V E where
  exec := { x.exec with
    tasks := x.exec.tasks.set y.index y.task, frames, bindings := y.bindings, ticket := y.ticket }
  host := y.host

theorem views_view (x : Machine S V E) {i : Nat} (hi : i < x.exec.tasks.length) :
    Views x.exec i { x with index := i } (x.view i) := by
  refine ⟨rfl, rfl, ?_, Frames.Sets.refl _ _, rfl, rfl, rfl⟩
  have hs : x.exec.tasks.set i (x.exec.task i) = x.exec.tasks := by
    rw [Execution.task, List.getElem?_eq_getElem hi, Option.getD_some, List.set_getElem_self]
  simp only [Machine.view, hs]

theorem Machine.onTask_eq {α : Type} {x : Machine S V E} {i : Nat}
    {m : StateM (Focus S V E) α} {n : StateM (Local S V E) α} (hi : i < x.exec.tasks.length)
    (h : Simulation.Sim (Views x.exec i) m n) :
    ∃ frames, Machine.onTask i m x = ((n (x.view i)).1, x.put (n (x.view i)).2 frames) ∧
      x.exec.frames.Sets frames i (n (x.view i)).2.stack ∧ (n (x.view i)).2.index = i := by
  obtain ⟨ha, hv⟩ := h _ _ (views_view x hi)
  refine ⟨(m { x with index := i }).2.exec.frames, ?_, hv.frames, hv.local_index⟩
  refine Prod.ext ha ?_
  show (m { x with index := i }).2.toMachine = _
  rw [Machine.put, hv.local_index, ← hv.exec, ← hv.host]

end Xolotl.Core
