import Xolotl.Core.Run

/-! Suspending an execution and resuming it on the host's storage, which may have
grown in between. Growing adds free task slots, unused frames and empty bindings;
tasks, stacks and rows stay what they were. -/

namespace Xolotl.Core

variable {S V E : Type}

structure SuspendedExecution where
  taskCount : Nat
  frameCount : Nat
  imageId : Nat
  limits : ExecutionLimits
  framePool : FramePoolMeta
  steps : Nat
  cleanupSteps : Nat
  ticket : Nat
  cursor : Nat
  aborting : Bool
  deriving DecidableEq, Repr

structure Storage (V E : Type) where
  tasks : List (Task V E)
  tops : Nat → Stack
  frames : List (Option (Frame V E))
  bindings : List (Option V)

def Storage.Holds (store : Storage V E) (pool : FramePoolMeta) : Prop :=
  ∃ chains free, FramePool.Arranged { toFramePoolMeta := pool, slots := store.frames } store.tops
    chains free

namespace Execution

def suspend (x : Execution V E) : SuspendedExecution where
  taskCount := x.tasks.length
  frameCount := x.frames.pool.slots.length
  imageId := x.imageId
  limits := x.limits
  framePool := x.frames.pool.toFramePoolMeta
  steps := x.steps
  cleanupSteps := x.cleanupSteps
  ticket := x.ticket
  cursor := x.cursor
  aborting := x.aborting

def fromView (suspended : SuspendedExecution) (store : Storage V E)
    (h : store.Holds suspended.framePool) : Execution V E where
  tasks := store.tasks
  frames := ⟨{ toFramePoolMeta := suspended.framePool, slots := store.frames }, store.tops, h⟩
  bindings := store.bindings
  limits := suspended.limits
  steps := suspended.steps
  cleanupSteps := suspended.cleanupSteps
  ticket := suspended.ticket
  cursor := suspended.cursor
  aborting := suspended.aborting
  imageId := suspended.imageId

def resume (image : ProgramImage V E) (suspended : SuspendedExecution) (store : Storage V E)
    (h : store.Holds suspended.framePool) : Except Fault (Execution V E) :=
  if image.id ≠ suspended.imageId then .error .imageMismatch
  else if store.tasks.length < suspended.taskCount ∨ Word.u32Max < store.tasks.length then
    .error .tasks
  else if store.frames.length < suspended.frameCount ∨ Word.u32Max < store.frames.length then
    .error .frames
  else if suspended.limits.bindingsPerTask < image.bindings ∨
      store.bindings.length / store.tasks.length < suspended.limits.bindingsPerTask then
    .error .invalidBinding
  else .ok (fromView suspended store h)

/-- What the host owes a suspended execution: existing slots are preserved, new task
slots are default, new frames and bindings empty, and binding rows are moved to the
new stride. -/
structure Grown (x : Execution V E) (limits : ExecutionLimits) (store : Storage V E) : Prop where
  tasks : ∃ n, store.tasks = x.tasks ++ List.replicate n ({} : Task V E)
  tops : ∀ i < x.tasks.length, store.tops i = x.frames.tops i
  new_tops : ∀ i, x.tasks.length ≤ i → store.tops i = {}
  frames : ∃ n, store.frames = x.frames.pool.slots ++ List.replicate n none
  rows : ∀ i slot, i < x.tasks.length → slot < x.limits.bindingsPerTask →
    store.bindings[i * limits.bindingsPerTask + slot]?.getD none = x.binding i slot
  new_rows : ∀ i slot, slot < limits.bindingsPerTask →
    x.tasks.length ≤ i ∨ x.limits.bindingsPerTask ≤ slot →
    store.bindings[i * limits.bindingsPerTask + slot]?.getD none = none
  framesPerTask : x.limits.framesPerTask ≤ limits.framesPerTask
  bindingsPerTask : x.limits.bindingsPerTask ≤ limits.bindingsPerTask

theorem resume_ok {image : ProgramImage V E} {suspended : SuspendedExecution}
    {store : Storage V E} {h : store.Holds suspended.framePool} {x : Execution V E}
    (hx : resume image suspended store h = .ok x) : x = fromView suspended store h := by
  unfold resume at hx
  split_ifs at hx
  exact (Except.ok.inj hx).symm

namespace Grown

variable {x : Execution V E} {limits : ExecutionLimits} {store : Storage V E}
  {suspended : SuspendedExecution}

theorem task_eq (hg : Grown x limits store) (h : store.Holds suspended.framePool) (i : Nat) :
    (fromView suspended store h).task i = x.task i := by
  obtain ⟨n, ht⟩ := hg.tasks
  show (store.tasks[i]?).getD {} = (x.tasks[i]?).getD {}
  rw [ht]
  by_cases hi : i < x.tasks.length
  · rw [List.getElem?_append_left hi]
  · rw [List.getElem?_append_right (not_lt.mp hi), List.getElem?_replicate,
      List.getElem?_eq_none (not_lt.mp hi)]
    split <;> rfl

theorem stack_eq (hg : Grown x limits store) (hf : Forest x)
    (h : store.Holds suspended.framePool) (i : Nat) :
    (fromView suspended store h).stack i = x.stack i := by
  obtain ⟨n, hfs⟩ := hg.frames
  show FramePool.collect store.frames (store.tops i).top (store.tops i).depth = x.stack i
  by_cases hi : i < x.tasks.length
  · obtain ⟨chains, free, ha⟩ := x.frames.arranged
    rw [hg.tops i hi, hfs, ha.depth i, FramePool.collect_append (ha.stack i), ← ha.depth i]
    rfl
  · have hfr : (x.task i).state.isFree = true := by
      rw [task, List.getElem?_eq_none (not_lt.mp hi)]
      rfl
    rw [hg.new_tops i (not_lt.mp hi), (hf.fresh i hfr).2]
    rfl

theorem forest (hg : Grown x limits store) (hf : Forest x)
    (h : store.Holds suspended.framePool) (hli : suspended.limits = limits) :
    Forest (fromView suspended store h) := by
  have ht := hg.task_eq h
  have hs := hg.stack_eq hf h
  have hl : (fromView suspended store h).links = x.links := by
    funext i
    rw [links, ht, links]
  constructor
  · rw [ht]
    exact hf.root_live
  · rw [hl]
    exact hf.root_parent
  · intro i hi
    rw [ht] at hi ⊢
    rw [hs]
    exact hf.fresh i hi
  · intro i hi
    rw [ht] at hi ⊢
    exact hf.input i hi
  · intro i h0 hi
    rw [ht] at hi
    obtain ⟨p, j, hp, hj, hij⟩ := hf.child i h0 hi
    exact ⟨p, j, by rw [hl]; exact hp, by rw [ht]; exact hj, hij⟩
  · intro p j hj
    rw [ht] at hj
    obtain ⟨hne, hch⟩ := hf.joined p j hj
    refine ⟨hne, fun c hc => ?_⟩
    rw [ht, hl]
    exact hch c hc
  · intro i outcome j hst
    rw [ht] at hst
    exact hf.halted i outcome j hst
  · intro i outcome hst
    rw [ht] at hst
    rw [hs]
    exact hf.closed i outcome hst
  · intro i
    rw [hs]
    refine (hf.depth i).trans (hg.framesPerTask.trans ?_)
    rw [← hli]
    exact le_refl _
  · intro i
    rw [hl]
    exact hf.ends i

end Grown
end Execution
end Xolotl.Core
