import Xolotl.Core.Moves
import Xolotl.Lib.Walk

/-! What the operations of a machine do to its task slots: which slots they
change, and that all others keep their task and their frames. -/

namespace Xolotl.Core

open List

variable {S V E : Type}

namespace Execution

def stack (x : Execution V E) (i : Nat) : List (FrameKind V E) := x.frames.stack i

variable {i k : Nat} (x : Execution V E) {x' : Execution V E} {t : Task V E}

theorem task_setTask_self (hi : i < x.tasks.length) (t : Task V E) :
    (x.setTask i t).task i = t := by
  simp [task, setTask, List.getElem?_set_self hi]

theorem task_setTask_other (h : k ≠ i) (t : Task V E) :
    (x.setTask i t).task k = x.task k := by
  simp [task, setTask, List.getElem?_set_ne h.symm]

theorem length_setTask (i : Nat) (t : Task V E) :
    (x.setTask i t).tasks.length = x.tasks.length := by
  simp [setTask]

variable {x}

theorem lt_length_of_not_free (h : (x.task i).state.isFree = false) : i < x.tasks.length := by
  by_contra hi
  rw [task, List.getElem?_eq_none (not_lt.mp hi)] at h
  cases h

/-! ## One slot -/

structure Puts (x x' : Execution V E) (i : Nat) (t : Task V E) (frames : List (FrameKind V E)) :
    Prop where
  tasks : x'.tasks = x.tasks.set i t
  frames : x.frames.Sets x'.frames i frames
  limits : x'.limits = x.limits
  imageId : x'.imageId = x.imageId
  aborting : x'.aborting = x.aborting
  cursor : x'.cursor = x.cursor
  ticket : x.ticket ≤ x'.ticket

namespace Puts

variable {x x' x'' : Execution V E} {i k : Nat} {t t' : Task V E}
  {frames frames' : List (FrameKind V E)} (h : Puts x x' i t frames)
include h

theorem trans (h' : Puts x' x'' i t' frames') : Puts x x'' i t' frames' where
  tasks := by rw [h'.tasks, h.tasks, set_set]
  frames := h.frames.trans h'.frames
  limits := h'.limits.trans h.limits
  imageId := h'.imageId.trans h.imageId
  aborting := h'.aborting.trans h.aborting
  cursor := h'.cursor.trans h.cursor
  ticket := h.ticket.trans h'.ticket

omit h in
theorem setTask (x : Execution V E) (i : Nat) (t : Task V E) :
    Puts x (x.setTask i t) i t (x.stack i) :=
  ⟨rfl, Frames.Sets.refl _ _, rfl, rfl, rfl, rfl, le_refl _⟩

theorem task_self (hi : i < x.tasks.length) : x'.task i = t := by
  simp [task, h.tasks, List.getElem?_set_self hi]

theorem task_other (hk : k ≠ i) : x'.task k = x.task k := by
  simp [task, h.tasks, List.getElem?_set_ne hk.symm]

theorem stack_self : x'.stack i = frames := by
  rw [stack, h.frames.stack, Function.update_self]

theorem stack_other (hk : k ≠ i) : x'.stack k = x.stack k := by
  rw [stack, h.frames.stack, Function.update_of_ne hk]
  rfl

omit h in
theorem stack_eq (h : Puts x x' i t (x.stack i)) (k : Nat) : x'.stack k = x.stack k := by
  by_cases hk : k = i
  · rw [hk, h.stack_self]
  · exact h.stack_other hk

theorem length : x'.tasks.length = x.tasks.length := by
  rw [h.tasks, length_set]

theorem keeps {α : Type} (f : Task V E → α) (hf : f t = f (x.task i))
    (k : Nat) : f (x'.task k) = f (x.task k) := by
  by_cases hk : k = i
  · subst hk
    by_cases hlt : k < x.tasks.length
    · rw [h.task_self hlt, hf]
    · rw [task, h.tasks, set_eq_of_length_le (Nat.not_lt.mp hlt)]
      rfl
  · rw [h.task_other hk]

end Puts

/-! ## Cancellation -/

variable (x)

theorem task_cancel (h : (x.task 0).state.terminalResult = none) (i : Nat) :
    x.cancel.task i = { x.task i with
      cancelled := (x.task i).cancelled ||
        !((x.task i).state.isFree || (x.task i).state.terminalResult.isSome) } := by
  rw [task, cancel, h, if_neg (by simp)]
  dsimp only
  rw [List.getElem?_map, task]
  rcases x.tasks[i]? with _ | ⟨state, pc, input, context, parent, cleaning, cancelled⟩
  · rfl
  · cases state <;> simp [State.isFree, State.terminalResult]

theorem length_cancel : x.cancel.tasks.length = x.tasks.length := by
  unfold cancel
  split
  · rfl
  · simp

theorem frames_cancel : x.cancel.frames = x.frames := by
  unfold cancel
  split <;> rfl

def links (x : Execution V E) (i : Nat) : Option Nat := (x.task i).parent

def Below (x : Execution V E) (root i : Nat) : Prop :=
  ∃ p, x.links i = some p ∧ Walk.Visits x.links p root

theorem descends_iff_walk (root n : Nat) (o : Option Nat) :
    x.descends root n o = true ↔ ∃ m < n, (o.bind (Walk.walk x.links · m)) = some root := by
  induction n generalizing o with
  | zero => simp [descends]
  | succ n ih =>
    cases o with
    | none => simp [descends]
    | some p =>
      unfold descends
      by_cases hp : p = root
      · rw [if_pos hp]
        refine iff_of_true rfl ⟨0, Nat.succ_pos n, ?_⟩
        rw [Option.bind_some, Walk.walk_zero, hp]
      · rw [if_neg hp, ih]
        constructor
        · rintro ⟨m, hm, hw⟩
          refine ⟨m + 1, Nat.succ_lt_succ hm, ?_⟩
          rw [Option.bind_some, Walk.walk_succ_eq]
          exact hw
        · rintro ⟨m, hm, hw⟩
          cases m with
          | zero => exact absurd (Option.some.inj hw) hp
          | succ m =>
            refine ⟨m, Nat.lt_of_succ_lt_succ hm, ?_⟩
            rw [Option.bind_some, Walk.walk_succ_eq] at hw
            exact hw

variable {x} in
theorem descends_iff (he : ∀ k, Walk.Ends x.links k)
    (hl : ∀ k p, x.links k = some p → p < x.tasks.length) (root i : Nat) :
    x.descends root x.tasks.length (x.task i).parent = true ↔ x.Below root i := by
  rw [descends_iff_walk]
  constructor
  · rintro ⟨m, -, hm⟩
    obtain ⟨p, hp, hw⟩ := Option.bind_eq_some_iff.mp hm
    exact ⟨p, hp, m, hw⟩
  · rintro ⟨p, hp, m, hw⟩
    refine ⟨m, ?_, ?_⟩
    · have hin : ∀ b, Walk.Visits x.links p b → b ∈ Finset.range x.tasks.length := by
        intro b hb
        exact Finset.mem_range.mpr
          (hb.closed (p := (· < x.tasks.length)) (fun a b _ hab => hl a b hab) (hl i p hp))
      have hlt := Walk.walk_length_lt (n := m) (he p) hin (by simp [hw])
      rwa [Finset.card_range] at hlt
    · show (x.links i).bind _ = _
      rw [hp]
      exact hw

theorem descends_congr {x x' : Execution V E} (h : ∀ k, x'.links k = x.links k) (root n : Nat)
    (o : Option Nat) : x'.descends root n o = x.descends root n o := by
  rw [Bool.eq_iff_iff, descends_iff_walk, descends_iff_walk, funext h]

theorem descends_setCancelled (root i n : Nat) (o : Option Nat) :
    (x.setTask i { x.task i with cancelled := true }).descends root n o = x.descends root n o := by
  refine descends_congr (fun k => ?_) root n o
  rw [links, links]
  by_cases hk : k = i
  · subst hk
    by_cases hlt : k < x.tasks.length
    · rw [task_setTask_self x hlt]
    · rw [setTask, set_eq_of_length_le (not_lt.mp hlt)]
  · rw [task_setTask_other x hk]

theorem task_cancelTree {root : Nat} (hr : root < x.tasks.length) (i : Nat) :
    (x.cancelTree root).task i = { x.task i with
      cancelled := (x.task i).cancelled || decide (i = root) ||
        x.descends root x.tasks.length (x.task i).parent } := by
  unfold cancelTree
  simp only [descends_setCancelled, length_setTask]
  rw [task, List.getElem?_map, setTask]
  by_cases hi : i = root
  · subst hi
    rw [List.getElem?_set_self hr]
    simp
  · rw [List.getElem?_set_ne (Ne.symm hi), task]
    rcases x.tasks[i]? with _ | t
    · have hn : x.descends root x.tasks.length none = false := by
        cases x.tasks.length <;> rfl
      simp [hi, hn]
    · by_cases hd : x.descends root x.tasks.length t.parent = true <;> simp [hi, hd]

theorem frames_sweep (j : JoinState) : (x.sweep j).frames = x.frames := by
  unfold sweep
  dsimp only
  split <;> rfl

theorem length_sweep (j : JoinState) :
    (x.sweep j).tasks.length = x.tasks.length := by
  unfold sweep
  dsimp only
  split
  · simp [cancelTree, setTask]
  · rfl

variable {x} {j : JoinState} {left right node : Nat} {input : V} {join : Join}

theorem task_sweep (hl : j.left < x.tasks.length)
    (hr : j.right < x.tasks.length) (k : Nat) : (x.sweep j).task k = { x.task k with
      cancelled := ((x.sweep j).task k).cancelled } := by
  unfold sweep
  dsimp only
  split
  · rw [task_cancelTree x (by split <;> assumption)]
  · rfl

/-- Task `k` is the same, but may have been flagged. -/
abbrev Flags (x x' : Execution V E) (k : Nat) : Prop :=
  ∃ c, x'.task k = { x.task k with cancelled := c } ∧ ((x.task k).cancelled = true → c = true)

theorem task_sweep_flag (hl : j.left < x.tasks.length) (hr : j.right < x.tasks.length) (k : Nat) :
    x.Flags (x.sweep j) k := by
  refine ⟨_, task_sweep hl hr k, fun hk => ?_⟩
  unfold sweep
  dsimp only
  split
  · rw [task_cancelTree x (by split <;> assumption), hk]
    rfl
  · exact hk

/-! ## Freeing -/

theorem foldl_setBinding (f : Execution V E → Nat → Option V) (task : Nat) (l : List Nat)
    (x : Execution V E) : ∃ bindings,
      l.foldl (fun x slot => x.setBinding task slot (f x slot)) x = { x with bindings } := by
  induction l generalizing x with
  | nil => exact ⟨x.bindings, rfl⟩
  | cons slot l ih => exact ih (x.setBinding task slot (f x slot))

theorem puts_free (x : Execution V E) (i : Nat) : Puts x (x.free i) i {} [] := by
  obtain ⟨bindings, hb⟩ := foldl_setBinding (fun _ _ => none) i
    (List.range x.limits.bindingsPerTask) { x with frames := x.frames.drain i }
  unfold free
  dsimp only
  rw [hb]
  exact ⟨rfl, x.frames.drain_eq i, rfl, rfl, rfl, rfl, le_refl _⟩

/-! ## Forking -/

def child (x : Execution V E) (i c pc : Nat) (input : V) : Task V E :=
  { x.task c with
    pc, input := some input, state := .ready, parent := some i
    context := (x.task i).context, cleaning := (x.task i).cleaning }

structure Forks (x x' : Execution V E) (i : Nat) (j : JoinState) (left right : Nat) (input : V) :
    Prop where
  distinct : j.left ≠ j.right
  left_free : (x.task j.left).state.isFree = true
  right_free : (x.task j.right).state.isFree = true
  self : x'.task i = { x.task i with state := .joining j }
  left_task : x'.task j.left = x.child i j.left left input
  right_task : x'.task j.right = x.child i j.right right input
  other : ∀ k, k ≠ i → k ≠ j.left → k ≠ j.right → x'.task k = x.task k
  length : x'.tasks.length = x.tasks.length
  frames : x'.frames = x.frames
  limits : x'.limits = x.limits
  imageId : x'.imageId = x.imageId
  cursor : x'.cursor = x.cursor
  ticket : x'.ticket = x.ticket

theorem Forks.ne_of_live (hx : Forks x x' i j left right input)
    (hk : (x.task k).state.isFree = false) : k ≠ j.left ∧ k ≠ j.right := by
  constructor
  · rintro rfl
    rw [hx.left_free] at hk
    cases hk
  · rintro rfl
    rw [hx.right_free] at hk
    cases hk

theorem Forks.keeps {α : Type} (hx : Forks x x' i j left right input) (f : Task V E → α)
    (hf : f { x.task i with state := .joining j } = f (x.task i)) (hkl : k ≠ j.left)
    (hkr : k ≠ j.right) : f (x'.task k) = f (x.task k) := by
  by_cases hk : k = i
  · rw [hk, hx.self, hf]
  · rw [hx.other k hk hkl hkr]

theorem mem_freeSlots : i ∈ x.freeSlots ↔ i < x.tasks.length ∧ (x.task i).state.isFree = true := by
  simp [freeSlots]

theorem adopt_eq (x : Execution V E) (task child : Nat) : ∃ bindings,
    x.adopt task child = { x.setTask child { x.task child with
      parent := some task, context := (x.task task).context
      cleaning := (x.task task).cleaning } with bindings } := by
  exact foldl_setBinding (fun x slot => x.binding task slot) child _ _

theorem task_adopt_other (x : Execution V E) (task : Nat) {child : Nat} (h : k ≠ child) :
    (x.adopt task child).task k = x.task k := by
  obtain ⟨bindings, hx⟩ := adopt_eq x task child
  rw [hx]
  exact task_setTask_other x h _

theorem task_adopt_self (x : Execution V E) (task : Nat) {child : Nat}
    (h : child < x.tasks.length) : (x.adopt task child).task child = { x.task child with
      parent := some task, context := (x.task task).context
      cleaning := (x.task task).cleaning } := by
  obtain ⟨bindings, hx⟩ := adopt_eq x task child
  rw [hx]
  exact task_setTask_self x h _

theorem forks_of_fork (hi : (x.task i).state.isFree = false)
    (h : x.fork i left right join node input = .ok x') :
    ∃ a b, Forks x x' i ⟨a, b, join, node⟩ left right input := by
  unfold fork at h
  split at h
  · next a b rest hs =>
    have ha := mem_freeSlots.mp (hs ▸ mem_cons_self : a ∈ x.freeSlots)
    have hb := mem_freeSlots.mp (hs ▸ mem_cons_of_mem _ mem_cons_self : b ∈ x.freeSlots)
    have hab : a ≠ b := by
      have hnd : x.freeSlots.Nodup := List.Nodup.filter _ nodup_range
      rw [hs] at hnd
      rintro rfl
      simp at hnd
    have hia : i ≠ a := by
      rintro rfl
      rw [ha.2] at hi
      cases hi
    have hib : i ≠ b := by
      rintro rfl
      rw [hb.2] at hi
      cases hi
    have hil := lt_length_of_not_free hi
    -- The slots change one after the other: `a`, `b`, again `a`, again `b`, then `i`.
    cases h
    have hst : ∀ k, k ≠ a → k ≠ b →
        ((x.start a left input).start b right input).task k = x.task k := fun k hka hkb => by
      rw [start, task_setTask_other _ hkb, start, task_setTask_other _ hka]
    have hl : ((x.start a left input).start b right input).tasks.length = x.tasks.length := by
      simp only [start, length_setTask]
    generalize h₂ : (x.start a left input).start b right input = x₂ at hst hl
    obtain ⟨bindings, h₃⟩ := adopt_eq x₂ i a
    obtain ⟨bindings', h₄⟩ := adopt_eq (x₂.adopt i a) i b
    have hl₃ : (x₂.adopt i a).tasks.length = x.tasks.length := by rw [h₃, ← hl]; simp [setTask]
    have hl₄ : ((x₂.adopt i a).adopt i b).tasks.length = x.tasks.length := by
      rw [h₄, ← hl₃]
      simp [setTask]
    refine ⟨a, b, hab, ha.2, hb.2, ?_, ?_, ?_, ?_, ?_, ?_, ?_, ?_, ?_, ?_⟩
    · rw [setState, task_setTask_self _ (hl₄ ▸ hil), task_adopt_other _ i hib,
        task_adopt_other _ i hia, hst i hia hib]
    · rw [setState, task_setTask_other _ hia.symm, task_adopt_other _ i hab,
        task_adopt_self _ i (hl ▸ ha.1), hst i hia hib, ← h₂, start, task_setTask_other _ hab,
        start, task_setTask_self _ ha.1]
      rfl
    · rw [setState, task_setTask_other _ hib.symm, task_adopt_self _ i (hl₃ ▸ hb.1),
        task_adopt_other _ i hia, hst i hia hib, task_adopt_other _ i hab.symm, ← h₂, start,
        task_setTask_self _ (by rw [start, length_setTask]; exact hb.1), start,
        task_setTask_other _ hab.symm]
      rfl
    · intro k hki hka hkb
      rw [setState, task_setTask_other _ hki, task_adopt_other _ i hkb, task_adopt_other _ i hka,
        hst k hka hkb]
    · rw [setState, length_setTask, hl₄]
    all_goals
      simp only [h₄]
      rw [h₃, ← h₂]
      rfl
  · cases h

theorem fork_error {e : Fault} (h : x.fork i left right join node input = .error e) :
    e = .tasks ∧ x.freeSlots.length < 2 := by
  unfold fork at h
  split at h
  · cases h
  · next hsl =>
    cases h
    rcases hs : x.freeSlots with _ | ⟨a, _ | ⟨b, rest⟩⟩
    · simp
    · simp
    · exact absurd hs (hsl a b rest)

/-! ## Joining -/

structure Joins (x x' : Execution V E) (i : Nat) (j : JoinState) (t : Task V E) : Prop where
  self : x'.task i = t
  left_task : x'.task j.left = {}
  right_task : x'.task j.right = {}
  other : ∀ k, k ≠ i → k ≠ j.left → k ≠ j.right → x'.task k = x.task k
  left_stack : x'.stack j.left = []
  right_stack : x'.stack j.right = []
  stack_other : ∀ k, k ≠ j.left → k ≠ j.right → x'.stack k = x.stack k
  capacity : x'.frames.capacity = x.frames.capacity
  length : x'.tasks.length = x.tasks.length
  limits : x'.limits = x.limits
  imageId : x'.imageId = x.imageId
  cursor : x'.cursor = x.cursor
  ticket : x.ticket ≤ x'.ticket

theorem Joins.keeps {α : Type}
    (hx : Joins x x' i j t) (f : Task V E → α) (hf : f t = f (x.task i)) (hkl : k ≠ j.left)
    (hkr : k ≠ j.right) : f (x'.task k) = f (x.task k) := by
  by_cases hk : k = i
  · rw [hk, hx.self, hf]
  · rw [hx.other k hk hkl hkr]

theorem Joins.ne_of_live
    (hx : Joins x x' i j t) (hk : (x'.task k).state.isFree = false) : k ≠ j.left ∧ k ≠ j.right := by
  constructor
  · rintro rfl
    rw [hx.left_task] at hk
    cases hk
  · rintro rfl
    rw [hx.right_task] at hk
    cases hk

def clear (x : Execution V E) (j : JoinState) : Execution V E :=
  (((x.setState j.left .free).setState j.right .free).free j.left).free j.right

theorem task_clear_other (x : Execution V E) (hl : k ≠ j.left)
    (hr : k ≠ j.right) : (x.clear j).task k = x.task k := by
  rw [clear, (puts_free _ _).task_other hr, (puts_free _ _).task_other hl, setState,
    task_setTask_other _ hr, setState, task_setTask_other _ hl]

theorem length_clear (x : Execution V E) (j : JoinState) :
    (x.clear j).tasks.length = x.tasks.length := by
  rw [clear, (puts_free _ _).length, (puts_free _ _).length, setState, length_setTask, setState,
    length_setTask]

theorem joins_clear
    (hlr : j.left ≠ j.right) (hil : i ≠ j.left) (hir : i ≠ j.right) (hi : i < x.tasks.length)
    (hl : j.left < x.tasks.length) (hr : j.right < x.tasks.length)
    (h : Puts (x.clear j) x' i t ((x.clear j).stack i)) : Joins x x' i j t := by
  have hp₁ := Puts.setTask x j.left { x.task j.left with state := .free }
  generalize h₁ : x.setTask j.left _ = x₁ at hp₁
  have hp₂ := Puts.setTask x₁ j.right { x₁.task j.right with state := .free }
  generalize h₂ : x₁.setTask j.right _ = x₂ at hp₂
  have hp₃ := puts_free x₂ j.left
  generalize h₃ : x₂.free j.left = x₃ at hp₃
  have hp₄ := puts_free x₃ j.right
  have hx₄ : x.clear j = x₃.free j.right := by rw [← h₃, ← h₂, ← h₁]; rfl
  rw [← hx₄] at hp₄
  generalize x.clear j = x₄ at h hp₄
  have hl₂ : x₂.tasks.length = x.tasks.length := hp₂.length.trans hp₁.length
  have hl₃ : x₃.tasks.length = x.tasks.length := hp₃.length.trans hl₂
  have hl₄ : x₄.tasks.length = x.tasks.length := hp₄.length.trans hl₃
  have hs₂ : ∀ k, x₂.stack k = x.stack k := fun k => by
    rw [← h₂, ← h₁]
    rfl
  have hli₂ : x₂.frames = x.frames := by rw [← h₂, ← h₁]; rfl
  refine ⟨h.task_self (hl₄ ▸ hi), ?_, ?_, ?_, ?_, ?_, ?_, ?_, h.length.trans hl₄, ?_, ?_, ?_, ?_⟩
  · rw [h.task_other hil.symm, hp₄.task_other hlr, hp₃.task_self (hl₂ ▸ hl)]
  · rw [h.task_other hir.symm, hp₄.task_self (hl₃ ▸ hr)]
  · intro k hki hkl hkr
    rw [h.task_other hki, hp₄.task_other hkr, hp₃.task_other hkl, hp₂.task_other hkr,
      hp₁.task_other hkl]
  · rw [h.stack_other hil.symm, hp₄.stack_other hlr, hp₃.stack_self]
  · rw [h.stack_other hir.symm, hp₄.stack_self]
  · intro k hkl hkr
    by_cases hki : k = i
    · subst hki
      rw [h.stack_self, hp₄.stack_other hkr, hp₃.stack_other hkl, hs₂]
    · rw [h.stack_other hki, hp₄.stack_other hkr, hp₃.stack_other hkl, hs₂]
  · rw [h.frames.capacity, hp₄.frames.capacity, hp₃.frames.capacity, hli₂]
  · rw [h.limits, hp₄.limits, hp₃.limits, hp₂.limits, hp₁.limits]
  · rw [h.imageId, hp₄.imageId, hp₃.imageId, hp₂.imageId, hp₁.imageId]
  · rw [h.cursor, hp₄.cursor, hp₃.cursor, hp₂.cursor, hp₁.cursor]
  · exact hp₁.ticket.trans (hp₂.ticket.trans (hp₃.ticket.trans (hp₄.ticket.trans h.ticket)))

end Execution
end Xolotl.Core
