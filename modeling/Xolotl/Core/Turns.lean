import Xolotl.Core.Forest

/-! What one turn of a machine and one answer of its host do, case by case: which
task the scan selects, what its transition does, and which answers are refused. -/

namespace Xolotl.Core

open List

variable {S V E : Type}

theorem Task.cleaning_finished (t : Task V E) (next : Option Nat) (result : Except E V) :
    (t.finished next result).cleaning = t.cleaning := by
  cases result with
  | error e => rfl
  | ok value => cases next <;> rfl

namespace Execution

def passes (x : Execution V E) (i : Nat) : Bool :=
  match (x.task i).state with
  | .free => true
  | .done _ => true
  | .waiting _ _ => !((x.task i).cancelled && (x.task i).cleaning == 0)
  | .joining _ => !x.ready i
  | _ => false

def stop (x : Execution V E) : Option Nat := (Machine.scanOrder x).find? fun i => !x.passes i

/-- How the scan selects task `i`; ordinary work of a cancelled task is replaced
by its cancellation. -/
inductive Selects (values : Values S V E) (x : Execution V E) (i : Nat) : Execution V E → Prop
  | joining {j : JoinState} (hst : (x.task i).state = .joining j) (hr : x.ready i = true) :
      Selects values x i x
  | failing {e : E} (hst : (x.task i).state = .returning (.error e)) : Selects values x i x
  | working (hst : (x.task i).state = .ready ∨ ∃ v, (x.task i).state = .returning (.ok v))
      (hc : (x.task i).cancelled = false ∨ 0 < (x.task i).cleaning) : Selects values x i x
  | interrupted {x' : Execution V E} (s : S)
      (hst : (x.task i).state = .ready ∨ ∃ v, (x.task i).state = .returning (.ok v))
      (hc : (x.task i).cancelled = true) (hz : (x.task i).cleaning = 0)
      (hx : Puts x x' i ((x.task i).returned (values.faulted .cancelled (x.task i) s).1)
        (x.stack i)) : Selects values x i x'

structure Charges (x x' : Execution V E) (i : Nat) : Prop where
  eq : x' = { x with
    steps := x'.steps, cleanupSteps := x'.cleanupSteps, cursor := (i + 1) % x.tasks.length }

variable (image : ProgramImage V E) (values : Values S V E) (x : Execution V E) in
inductive Turned : Machine.Turn V E → Execution V E → Prop
  | done {result : Except E V} (h : (x.task 0).state.terminalResult = some result) :
      Turned (.done result) x
  | waiting (h : (x.task 0).state.terminalResult = none)
      (hp : ∀ i < x.tasks.length, x.quota.passes i = true) :
      Turned .waiting x.quota
  | cancel {i ticket node : Nat} (h : (x.task 0).state.terminalResult = none)
      (hst : (x.quota.task i).state = .waiting ticket node)
      (hc : (x.quota.task i).cancelled = true) (hz : (x.quota.task i).cleaning = 0)
      (hstop : x.quota.stop = some i) : Turned (.cancel i ticket) x.quota
  | halted {i : Nat} {y x' : Execution V E} {result : Except E V}
      (h : (x.task 0).state.terminalResult = none) (hsel : Selects values x.quota i y)
      (hx : Puts y x' 0 { y.task 0 with state := .halted result (y.task 0).state.join }
        (y.stack 0)) (hstop : x.quota.stop = some i)
      (hresult : ∃ e control s, result = (values.influenceResult (.error e) control s).1) :
      Turned (.halted result) x'
  | moved {i : Nat} {y z x' : Execution V E} {r : Machine.Turn V E}
      (h : (x.task 0).state.terminalResult = none) (hsel : Selects values x.quota i y)
      (hz : Charges y z i) (hm : Moves image values z i r x') (hstop : x.quota.stop = some i) :
      Turned r x'

variable (image : ProgramImage V E) (x : Execution V E) (i ticket : Nat) (event : HostEvent V E) in
inductive Completed : Except Fault Unit → Execution V E → Prop
  | stale {e : Fault} (he : e = .imageMismatch ∨ e = .staleEvent) : Completed (.error e) x
  | delivered {node : Nat} {input : V} {t : Task V E} {pushed : List (FrameKind V E)}
      {x' : Execution V E} (hroot : (x.task 0).state.terminalResult = none)
      (hst : (x.task i).state = .waiting ticket node)
      (hd : Delivers image { x.task i with input := some input } node event t pushed)
      (hroom : (pushed ++ x.stack i).length ≤ max (x.stack i).length (x.room i))
      (hx : Puts x x' i t (pushed ++ x.stack i)) : Completed (.ok ()) x'
  | refused {node : Nat} {input : V} {e : Fault} {x' : Execution V E}
      (hroot : (x.task 0).state.terminalResult = none)
      (hst : (x.task i).state = .waiting ticket node) (hne : e ≠ .tasks)
      (he : e = .frames → x.room i < (x.stack i).length + 1 ∨ ∃ instruction index body context,
        image.node node = .ok instruction ∧ instruction.kind = .scope index body ∧
        event = .enter context ∧ x.room i < (x.stack i).length + 2)
      (hx : Puts x x' i { x.task i with input := some input } (x.stack i)) :
      Completed (.error e) x'

theorem lt_length_of_working {x : Execution V E} {i : Nat}
    (h : (x.task i).state = .ready ∨ ∃ v, (x.task i).state = .returning (.ok v)) :
    i < x.tasks.length :=
  lt_length_of_not_free (by rcases h with h | ⟨v, h⟩ <;> rw [h] <;> rfl)

namespace Selects

variable {values : Values S V E} {x y : Execution V E} {i : Nat} (h : Selects values x i y)
include h

theorem state : (y.task i).state = .ready ∨
    (∃ o, (y.task i).state = .returning o) ∨ ∃ j, (y.task i).state = .joining j := by
  cases h with
  | joining hst => exact .inr (.inr ⟨_, hst⟩)
  | failing hst => exact .inr (.inl ⟨_, hst⟩)
  | working hst =>
    rcases hst with hst | ⟨v, hst⟩
    · exact .inl hst
    · exact .inr (.inl ⟨_, hst⟩)
  | interrupted s hst hc hz hx =>
    exact .inr (.inl ⟨_, by rw [hx.task_self (lt_length_of_working hst)]; rfl⟩)

theorem task_eq (k : Nat) : ∃ state, y.task k = { x.task k with state } ∧
    (state = (x.task k).state ∨ k = i ∧ (x.task k).cancelled = true ∧ (x.task k).cleaning = 0 ∧
      ((x.task k).state = .ready ∨ ∃ v, (x.task k).state = .returning (.ok v)) ∧
      ∃ s, state = .returning (values.faulted .cancelled (x.task k) s).1) := by
  cases h with
  | joining | failing | working => exact ⟨_, rfl, .inl rfl⟩
  | interrupted s hst hc hz hx =>
    by_cases hk : k = i
    · subst hk
      exact ⟨_, hx.task_self (lt_length_of_working hst), .inr ⟨rfl, hc, hz, hst, s, rfl⟩⟩
    · rw [hx.task_other hk]
      exact ⟨_, rfl, .inl rfl⟩

theorem terminalResult_eq : (x.task i).state.terminalResult = none := by
  cases h with
  | joining hst | failing hst => rw [hst]; rfl
  | working hst | interrupted _ hst => rcases hst with hst | ⟨v, hst⟩ <;> rw [hst] <;> rfl

theorem join_eq (k : Nat) : (y.task k).state.join = (x.task k).state.join := by
  obtain ⟨state, ht, hs⟩ := h.task_eq k
  rw [ht]
  rcases hs with rfl | ⟨-, -, -, hst | ⟨v, hst⟩, s, rfl⟩
  · rfl
  · rw [hst]
    rfl
  · rw [hst]
    rfl

theorem not_passes : x.passes i = false := by
  unfold passes
  cases h with
  | joining hst hr => rw [hst, hr]; rfl
  | failing hst => rw [hst]
  | working hst | interrupted s hst => rcases hst with hst | ⟨v, hst⟩ <;> rw [hst]

theorem stack_eq (k : Nat) : y.stack k = x.stack k := by
  cases h with
  | joining | failing | working => rfl
  | interrupted s hst hc hz hx => exact hx.stack_eq k

theorem ready (hst : (y.task i).state = .ready) :
    y = x ∧ ((x.task i).cancelled = false ∨ 0 < (x.task i).cleaning) := by
  cases h with
  | joining hst' | failing hst' => rw [hst] at hst'; cases hst'
  | working hst' hc => exact ⟨rfl, hc⟩
  | interrupted s hst' hc hz hx =>
    rw [hx.task_self (lt_length_of_working hst')] at hst
    cases hst

end Selects

variable {x y : Execution V E} {i : Nat} {values : Values S V E}

theorem Charges.task_eq (h : Charges x y i) (k : Nat) : y.task k = x.task k := by
  rw [h.eq]
  rfl

theorem Charges.stack_eq (h : Charges x y i) (k : Nat) : y.stack k = x.stack k := by
  rw [h.eq]
  rfl

variable (image : ProgramImage V E) (values : Values S V E) (x : Execution V E) (i : Nat) in
/-- A move by what it leaves in the slots: the task ends, goes on alone, forks, or
looks at its children and settles with them. -/
inductive Course : Execution V E → Prop
  | closed {outcome outcome' : Except E V} {control : V} {x' : Execution V E} (s : S)
      (hst : (x.task i).state = .returning outcome) (hs : x.stack i = [])
      (hl : (values.landed outcome (x.task i).input s).1 = (outcome', control))
      (hx : Puts x x' i { x.task i with state := .done outcome', input := some control } []) :
      Course x'
  | goes {t : Task V E} {frames : List (FrameKind V E)} {x' : Execution V E}
      (hi : (x.task i).state.isRunning = true) (hx : Puts x x' i t frames)
      (ht : (x.task i).Continues t) (hdepth : (x.stack i).length ≤ x.limits.framesPerTask →
        frames.length ≤ x.limits.framesPerTask) : Course x'
  | forks {node : Node V E} {left right : Nat} {v control : V} {j : JoinState}
      {x₁ x' : Execution V E} (hst : (x.task i).state = .ready)
      (hn : image.node (x.task i).pc = .ok node) (hk : node.kind = .fork left right j.join)
      (hj : j.node = (x.task i).pc)
      (hx₁ : Puts x x₁ i { x.task i with input := some control } (x.stack i))
      (hx : Forks x₁ x' i j left right v) : Course x'
  | sweeps {j : JoinState} (hst : (x.task i).state = .joining j) : Course (x.sweep j)
  | settles {j : JoinState} {a b : Except E V} {t : Task V E} {x' : Execution V E}
      (hst : (x.task i).state = .joining j) (ha : (x.task j.left).state = .done a)
      (hb : (x.task j.right).state = .done b) (hx : Joins (x.sweep j) x' i j t)
      (ht : (x.task i).Continues t) (hc : t.cleaning = (x.task i).cleaning) :
      Course x'

theorem length_le_of_room {frames : List (FrameKind V E)}
    (hr : frames.length ≤ max (x.stack i).length (x.room i))
    (hd : (x.stack i).length ≤ x.limits.framesPerTask) :
    frames.length ≤ x.limits.framesPerTask :=
  hr.trans (Nat.max_le.mpr ⟨hd, Nat.min_le_left _ _⟩)

theorem Moves.course {image : ProgramImage V E} {x' : Execution V E}
    {r : Machine.Turn V E} (h : Moves image values x i r x') : Course image values x i x' := by
  have hso : ∀ v : V, some v ≠ none := Option.some_ne_none
  cases h with
  | closed s hst hs hl hx => exact .closed s hst hs hl hx
  | @resumed _ _ _ _ _ pushed _ _ s hst hs hl hr hx =>
    refine .goes (by rw [hst]; rfl) hx (hr.continues.of_same rfl rfl (hso _)) fun hde => ?_
    have hle : pushed.length ≤ 1 := by cases hr <;> simp
    rw [hs, length_cons] at hde
    rw [length_append]
    omega
  | stuck s s' hst hs hl hne hcl he hx =>
    refine .goes (by rw [hst]; rfl) hx ((Task.continues_returned _ _).of_same rfl rfl (hso _))
      fun hde => ?_
    rw [hs, length_cons] at hde
    omega
  | dispatched hst hv hn hd hro hx =>
    exact .goes (by rw [hst]; rfl) hx ((hd.continues (by simp)).of_same rfl rfl (hso _))
      (length_le_of_room hro)
  | requested hst hv hn hd hx =>
    refine .goes (by rw [hst]; rfl) hx ((hd.continues (by simp)).of_same rfl rfl (hso _)) ?_
    cases hd
    exact id
  | refused s hst hp hro he hne hx =>
    exact .goes (by rw [hst]; rfl) hx ((Task.continues_returned _ _).of_same rfl rfl (hso _))
      (length_le_of_room hro)
  | forked hst hv hn hk hj hx₁ hx => exact .forks hst hn hk hj hx₁ hx
  | starved s hst hn hk hf hx =>
    exact .goes (by rw [hst]; rfl) hx ((Task.continues_returned _ _).of_same rfl rfl (hso _)) id
  | swept hst hdo => exact .sweeps hst
  | joined s s' hst ha hb hn hx =>
    exact .settles hst ha hb hx (Task.continues_finished _ _ _) (Task.cleaning_finished _ _ _)
  | broken s hst ha hb hn hx => exact .settles hst ha hb hx (Task.continues_returned _ _) rfl

/-! ## The tree over a turn -/

variable (x)

theorem quota_eq : x.quota = x ∨ x.quota = x.cancel := by
  unfold quota
  split
  · exact .inr rfl
  · exact .inl rfl

theorem length_quota : x.quota.tasks.length = x.tasks.length := by
  rcases x.quota_eq with h | h <;> rw [h]
  exact length_cancel x

variable {x} in
theorem cancel_terminal (h : (x.task 0).state.terminalResult.isSome = true) : x.cancel = x := by
  rw [cancel, if_pos h]

theorem task_cancel' (k : Nat) : ∃ c, x.cancel.task k =
    { x.task k with cancelled := c } ∧ ((x.task k).cancelled = true → c = true) ∧
    ((x.task k).state.isFree = true → c = (x.task k).cancelled) := by
  by_cases ht : (x.task 0).state.terminalResult.isSome = true
  · rw [cancel_terminal ht]
    exact ⟨_, rfl, id, fun _ => rfl⟩
  · have hn : (x.task 0).state.terminalResult = none := by simpa using ht
    refine ⟨_, task_cancel x hn k, ?_, ?_⟩
    · intro hc
      rw [hc]
      rfl
    · intro hf
      rw [hf]
      simp

theorem task_quota (k : Nat) : x.Flags x.quota k := by
  rcases x.quota_eq with h | h <;> rw [h]
  · exact ⟨_, rfl, id⟩
  · obtain ⟨c, hc, hk, -⟩ := x.task_cancel' k
    exact ⟨c, hc, hk⟩

theorem state_quota (k : Nat) : (x.quota.task k).state = (x.task k).state := by
  obtain ⟨c, hc, -⟩ := x.task_quota k
  rw [hc]

theorem stack_quota (k : Nat) : x.quota.stack k = x.stack k := by
  rcases x.quota_eq with h | h <;> rw [h]
  rw [stack, frames_cancel]
  rfl

variable {x}

section

variable (hsel : Selects values x.quota i y) {z : Execution V E}
include hsel

theorem picked_task (k : Nat) : ∃ state c, y.task k = { x.task k with state, cancelled := c } ∧
      ((x.task k).cancelled = true → c = true) ∧
      (state = (x.task k).state ∨ k = i ∧ c = true ∧ (x.task k).cleaning = 0 ∧
        ((x.task k).state = .ready ∨ ∃ v, (x.task k).state = .returning (.ok v)) ∧
        ∃ s, state = .returning (values.faulted .cancelled (x.quota.task k) s).1) := by
  obtain ⟨c, hq, hc⟩ := x.task_quota k
  obtain ⟨state, hy, hst⟩ := hsel.task_eq k
  refine ⟨state, c, by rw [hy, hq], hc, ?_⟩
  rw [hq] at hst ⊢
  exact hst

theorem picked_cleaning (hz : Charges y z i) (k : Nat) :
    (z.task k).cleaning = (x.task k).cleaning := by
  obtain ⟨state, c, ht, -⟩ := picked_task hsel k
  rw [hz.task_eq, ht]

theorem picked_stack (hz : Charges y z i) (k : Nat) : z.stack k = x.stack k := by
  rw [hz.stack_eq, hsel.stack_eq, stack_quota]

theorem picked_ready (hz : Charges y z i) (hst : (z.task i).state = .ready) :
    (z.task i).cancelled = false ∨ 0 < (z.task i).cleaning := by
  rw [hz.task_eq] at hst ⊢
  obtain ⟨rfl, hw⟩ := hsel.ready hst
  exact hw

end

theorem limits_cancel (x : Execution V E) : x.cancel.limits = x.limits := by
  unfold cancel
  split <;> rfl

namespace Forest

variable {x' : Execution V E} (h : Forest x)
include h

theorem cancel : Forest x.cancel := by
  refine h.flags (fun k => ?_) (fun k hk => ?_) x.frames_cancel x.limits_cancel
  · obtain ⟨c, hc, -⟩ := x.task_cancel' k
    exact ⟨c, hc⟩
  · obtain ⟨c, hc, -, hf⟩ := x.task_cancel' k
    rw [hc, hf hk]

theorem quota : Forest x.quota := by
  rcases x.quota_eq with hq | hq <;> rw [hq]
  · exact h
  · exact h.cancel

theorem charges (hx : Charges x x' i) : Forest x' := by
  rw [hx.eq]
  exact ⟨h.root_live, h.root_parent, h.fresh, h.input, h.child, h.joined, h.halted, h.closed,
    h.depth, h.ends⟩

variable {values : Values S V E} {j : JoinState} {a b : Except E V} {t : Task V E}
  {image : ProgramImage V E} {r : Machine.Turn V E}

theorem selects (hx : Selects values x i x') : Forest x' := by
  cases hx with
  | joining | failing | working => exact h
  | interrupted s hst hc hz hx =>
    refine h.continues hx ?_ (Task.continues_returned _ _) (h.depth i)
    rcases hst with hst | ⟨v, hst⟩ <;> rw [hst] <;> rfl

theorem swept (hj : (x.task i).state.join = some j) (k : Nat) : x.Flags (x.sweep j) k := by
  obtain ⟨-, hc⟩ := h.joined i j hj
  exact task_sweep_flag (lt_length_of_not_free (hc j.left (.inl rfl)).1)
    (lt_length_of_not_free (hc j.right (.inr rfl)).1) k

theorem state_sweep (hj : (x.task i).state.join = some j) (k : Nat) :
    ((x.sweep j).task k).state = (x.task k).state := by
  obtain ⟨c, hc, -⟩ := h.swept hj k
  rw [hc]

theorem sweep (hj : (x.task i).state.join = some j) : Forest (x.sweep j) := by
  obtain ⟨-, hch⟩ := h.joined i j hj
  have hl := hch j.left (.inl rfl)
  have hr := hch j.right (.inr rfl)
  refine h.flags (fun k => (h.swept hj k).imp fun _ hc => hc.1) (fun k hk => ?_)
    (x.frames_sweep j) ?_
  · -- A free slot has no parent, so no loser is above it.
    have hne : ∀ c, (x.task c).state.isFree = false → k ≠ c := by
      rintro c hc rfl
      rw [hk] at hc
      cases hc
    have hke : ∀ c, (x.task c).state.isFree = false → (x.cancelTree c).task k = x.task k := by
      intro c hc
      have hb : x.descends c x.tasks.length (x.task k).parent = false := by
        rw [← Bool.not_eq_true, h.descends_iff]
        rintro ⟨p, hp, -⟩
        rw [h.live_of_link hp] at hk
        cases hk
      rw [task_cancelTree x (lt_length_of_not_free hc), hb]
      simp [hne c hc]
    unfold Execution.sweep
    dsimp only
    split
    · exact hke _ (by split; exacts [hr.1, hl.1])
    · rfl
  · unfold Execution.sweep
    dsimp only
    split <;> rfl

theorem settles (hst : (x.task i).state = .joining j) (ha : (x.task j.left).state = .done a)
    (hb : (x.task j.right).state = .done b) (hx : Joins (x.sweep j) x' i j t)
    (ht : (x.task i).Continues t) : Forest x' := by
  have hj : (x.task i).state.join = some j := by rw [hst]; rfl
  have hs := h.task_sweep_self hj
  obtain ⟨v, hv⟩ := h.input i (by rw [hst]; rfl)
  have hr := ht.running
  refine (h.sweep hj).joins hx ?_ ?_ ?_ (State.not_free_of_isRunning hr)
    (State.join_of_isRunning hr) ?_ (ht.input (by rw [hv]; exact Option.some_ne_none v)) ?_ ?_
  · rw [hs, hst]
  · rw [h.state_sweep hj, ha]
    rfl
  · rw [h.state_sweep hj, hb]
    rfl
  · rw [hs, ht.parent]
  · intro o j' hst'
    rw [hst'] at hr
    cases hr
  · intro o hst'
    rw [hst'] at hr
    cases hr

theorem stack_joins (ha : (x.task j.left).state = .done a) (hb : (x.task j.right).state = .done b)
    (hx : Joins (x.sweep j) x' i j t) (k : Nat) : x'.stack k = x.stack k := by
  have hs : (x.sweep j).stack k = x.stack k := by
    rw [stack, frames_sweep]
    rfl
  by_cases hkl : k = j.left
  · rw [hkl, hx.left_stack, h.closed _ _ ha]
  by_cases hkr : k = j.right
  · rw [hkr, hx.right_stack, h.closed _ _ hb]
  rw [hx.stack_other k hkl hkr, hs]

theorem forking {control : V} (hst : (x.task i).state = .ready)
    (hx : Puts x x' i { x.task i with input := some control } (x.stack i)) : Forest x' :=
  h.continues hx (by rw [hst]; rfl)
    ⟨by rw [hst]; rfl, rfl, rfl, fun _ => Option.some_ne_none control⟩ (h.depth i)

theorem moves (hx : Moves image values x i r x') : Forest x' := by
  cases hx.course with
  | closed s hst hs hl hx =>
    have hf : (x.task i).state.isFree = false := by rw [hst]; rfl
    exact h.puts hx hf rfl (by rw [hst]; rfl) rfl (Option.some_ne_none _) (by simp)
      (fun _ _ => rfl) (Nat.zero_le _)
  | goes hi hx ht hd => exact h.continues hx hi ht (hd (h.depth i))
  | @forks node left right v control j x₁ _ hst hn hk hj hx₁ hx =>
    have hi := lt_length_of_not_free (x := x) (i := i) (by rw [hst]; rfl)
    refine (h.forking hst hx₁).forks hx ?_
    rw [hx₁.task_self hi, hst]
  | sweeps hst => exact h.sweep (by rw [hst]; rfl)
  | settles hst ha hb hx ht => exact h.settles hst ha hb hx ht

theorem turned (hx : Turned image values x r x') : Forest x' := by
  cases hx with
  | done => exact h
  | waiting | cancel => exact h.quota
  | @halted i y x' result hr hsel hx =>
    have hy := h.quota.selects hsel
    obtain ⟨v, hv⟩ := hy.input 0 hy.root_live
    refine hy.puts hx hy.root_live rfl rfl rfl ?_ (fun _ _ _ => rfl) (by simp) (hy.depth 0)
    show (y.task 0).input ≠ none
    rw [hv]
    exact Option.some_ne_none v
  | moved hr hsel hz hm => exact ((h.quota.selects hsel).charges hz).moves hm

theorem completed {ticket : Nat} {event : HostEvent V E}
    {r : Except Fault Unit} (hx : Completed image x i ticket event r x') : Forest x' := by
  have hs : ∀ v : V, some v ≠ none := Option.some_ne_none
  cases hx with
  | stale => exact h
  | delivered hr hst hd hro hx =>
    exact h.continues hx (by rw [hst]; rfl) (hd.continues.of_same rfl rfl (hs _))
      (length_le_of_room hro (h.depth i))
  | refused hr hst hne he hx =>
    exact h.continues hx (by rw [hst]; rfl) ⟨by rw [hst]; rfl, rfl, rfl, fun _ => hs _⟩ (h.depth i)

end Forest
end Execution

namespace Machine

open TaskCell Execution

variable (image : ProgramImage V E) (values : Values S V E) {m : Machine S V E} {i : Nat}

theorem completed_complete (hx : Forest m.exec) (ticket : Nat) (event : HostEvent V E) :
    Completed image m.exec i ticket event (complete image values i ticket event m).1
      (complete image values i ticket event m).2.exec := by
  unfold complete getExec
  simp only [bind, StateT.bind]
  by_cases hid : image.id ≠ m.exec.imageId
  · rw [if_pos hid]
    exact .stale (.inl rfl)
  · rw [if_neg hid]
    by_cases ht : (m.exec.task 0).state.terminalResult.isSome = true
    · rw [if_pos ht]
      exact .stale (.inr rfl)
    · rw [if_neg ht]
      rcases hst : (m.exec.task i).state with _ | _ | ⟨live, node⟩ | _ | _ | _ | _
      case waiting =>
        dsimp only
        by_cases hl : live = ticket
        · rw [if_pos hl]
          subst hl
          have hf : (m.exec.task i).state.isFree = false := by rw [hst]; rfl
          have hi := lt_length_of_not_free hf
          have hrt : (m.exec.task 0).state.terminalResult = none := by
            simpa using ht
          obtain ⟨v, hv⟩ := hx.input i hf
          have hde := Local.delivered image values (m.view i) hv node event
          generalize hre : (deliver image values node event).run (m.view i) = result at hde
          obtain ⟨hk, htk, hro, input, hc⟩ := hde
          obtain ⟨hr, hp, -⟩ := puts_onTask hi
            (agrees_deliver image values hi node event)
            (by rw [hre]; exact htk.ge)
          rw [hre] at hr hp
          rw [hr]
          obtain ⟨r, y⟩ := result
          cases r with
          | ok u =>
            obtain ⟨pushed, hd, hs⟩ := hc
            rw [hs] at hro hp
            exact .delivered hrt hst hd hro hp
          | error e =>
            obtain ⟨hta, hs, hne, he⟩ := hc
            rw [hta, hs] at hp
            exact .refused hrt hst hne he hp
        · rw [if_neg hl]
          exact .stale (.inr rfl)
      all_goals exact .stale (.inr rfl)

/-! ## Scanning -/

theorem interrupt_joining {j : JoinState} (hst : (m.exec.task i).state = .joining j) :
    interrupt values i m = ((), m) := by
  unfold interrupt getExec
  simp only [bind, StateT.bind]
  split
  · rw [hst]
    rfl
  · rfl

theorem selects_interrupt
    (hst : (m.exec.task i).state = .ready ∨ ∃ o, (m.exec.task i).state = .returning o) :
    Selects values m.exec i (interrupt values i m).2.exec ∧
      (interrupt values i m).2.exec.ready i = true := by
  have hf : (m.exec.task i).state.isFree = false := by
    rcases hst with h | ⟨o, h⟩ <;> rw [h] <;> rfl
  have hi := lt_length_of_not_free hf
  have hre : m.exec.ready i = true := by
    unfold Execution.ready
    rcases hst with h | ⟨o, h⟩ <;> rw [h]
  unfold interrupt getExec
  simp only [bind, StateT.bind]
  by_cases hc : (m.exec.task i).cancelled = true ∧ (m.exec.task i).cleaning = 0
  · rw [if_pos hc]
    obtain ⟨hr, hp⟩ := puts_fault values hi .cancelled
    have hs : ∀ m' : Machine S V E, m' = { (onTask i (faultResult values .cancelled :
        StateM (Focus S V E) _) m).2 with
          exec := (onTask i (faultResult values .cancelled) m).2.exec.setState
            i (.returning (onTask i (faultResult values .cancelled) m).1) } →
        (m.exec.task i).state = .ready ∨ (∃ v, (m.exec.task i).state = .returning (.ok v)) →
        Selects values m.exec i m'.exec ∧ m'.exec.ready i = true := by
      rintro m' rfl hst
      have hse := Puts.setTask
        (onTask i (faultResult values .cancelled) m).2.exec i
        { (onTask i (faultResult values .cancelled) m).2.exec.task i with
          state := .returning (values.faulted .cancelled (m.exec.task i) m.host).1 }
      rw [hp.task_self hi, hp.stack_self] at hse
      rw [hr, Execution.setState, hp.task_self hi]
      have hpu := hp.trans hse
      refine ⟨.interrupted _ hst hc.1 hc.2 hpu, ?_⟩
      unfold Execution.ready
      rw [hpu.task_self hi]
    rcases hst with h | ⟨_ | v, h⟩
    · rw [h]
      exact hs _ rfl (.inl h)
    · rw [h]
      exact ⟨.failing h, hre⟩
    · rw [h]
      exact hs _ rfl (.inr ⟨v, h⟩)
  · rw [if_neg hc]
    refine ⟨?_, hre⟩
    have hc' : (m.exec.task i).cancelled = false ∨ 0 < (m.exec.task i).cleaning := by
      rw [Nat.pos_iff_ne_zero, ← Bool.not_eq_true]
      exact not_and_or.mp hc
    rcases hst with h | ⟨e | v, h⟩
    · exact .working (.inl h) hc'
    · exact .failing h
    · exact .working (.inr ⟨v, h⟩) hc'

def Scanned (m : Machine S V E) (order : List Nat) (result : Scan × Machine S V E) : Prop :=
  match result with
  | (.none, m') => m' = m ∧ ∀ k ∈ order, m.exec.passes k = true
  | (.cancel i t, m') => m' = m ∧ ∃ before after node, order = before ++ i :: after ∧
      (∀ k ∈ before, m.exec.passes k = true) ∧ (m.exec.task i).state = .waiting t node ∧
      (m.exec.task i).cancelled = true ∧ (m.exec.task i).cleaning = 0
  | (.selected i, m') => ∃ before after, order = before ++ i :: after ∧
      (∀ k ∈ before, m.exec.passes k = true) ∧ Selects values m.exec i m'.exec

variable {values} in
theorem Scanned.skip {order : List Nat} {result : Scan × Machine S V E}
    (h : Scanned values m order result) (hi : m.exec.passes i = true) :
    Scanned values m (i :: order) result := by
  have hme : ∀ l : List Nat, (∀ k ∈ l, m.exec.passes k = true) →
      ∀ k ∈ i :: l, m.exec.passes k = true := by
    intro l hl k hk
    rcases mem_cons.mp hk with rfl | hk
    · exact hi
    · exact hl k hk
  obtain ⟨result, m'⟩ := result
  cases result with
  | none => exact ⟨h.1, hme _ h.2⟩
  | cancel k ticket =>
    obtain ⟨hm, before, after, node, ho, hp, hst⟩ := h
    exact ⟨hm, i :: before, after, node, by rw [ho]; rfl, hme _ hp, hst⟩
  | selected k =>
    obtain ⟨before, after, ho, hp, hs⟩ := h
    exact ⟨i :: before, after, by rw [ho]; rfl, hme _ hp, hs⟩

theorem scanned (hh : ∀ k o j, (m.exec.task k).state ≠ .halted o j) (order : List Nat) :
    Scanned values m order (scan values order m) := by
  induction order with
  | nil => exact ⟨rfl, by simp⟩
  | cons i rest ih =>
    rw [scan]
    unfold getExec
    simp only [bind, StateT.bind]
    rcases hst : (m.exec.task i).state with _ | _ | ⟨ticket, node⟩ | j | o | o | ⟨o, j⟩
    · exact ih.skip (by rw [passes, hst])
    · obtain ⟨hsel, hr⟩ := selects_interrupt values (.inl hst)
      show Scanned values m (i :: rest) ((if (interrupt values i m).2.exec.ready i = true then _
        else _ : StateM (Machine S V E) Scan) (interrupt values i m).2)
      rw [if_pos hr]
      exact ⟨[], rest, rfl, by simp, hsel⟩
    · split
      · next hc => exact ⟨rfl, [], rest, node, rfl, by simp, hst, hc.1, hc.2⟩
      · next hc =>
        refine ih.skip ?_
        rw [passes, hst]
        rw [not_and_or] at hc
        simpa using hc
    · show Scanned values m (i :: rest) ((if (interrupt values i m).2.exec.ready i = true then _
        else _ : StateM (Machine S V E) Scan) (interrupt values i m).2)
      rw [interrupt_joining values hst]
      by_cases hr : m.exec.ready i = true
      · rw [if_pos hr]
        exact ⟨[], rest, rfl, by simp, .joining hst hr⟩
      · rw [if_neg hr]
        refine ih.skip ?_
        rw [passes, hst]
        simpa using hr
    · obtain ⟨hsel, hr⟩ := selects_interrupt values (.inr ⟨o, hst⟩)
      show Scanned values m (i :: rest) ((if (interrupt values i m).2.exec.ready i = true then _
        else _ : StateM (Machine S V E) Scan) (interrupt values i m).2)
      rw [if_pos hr]
      exact ⟨[], rest, rfl, by simp, hsel⟩
    · exact ih.skip (by rw [passes, hst])
    · exact absurd hst (hh i o j)

/-! ## Turns -/

theorem charge_cases (m : Machine S V E) (i : Nat) : charge i m = (false, m) ∨
      ∃ m', charge i m = (true, m') ∧ Charges m.exec m'.exec i ∧ m'.host = m.host := by
  unfold charge getExec
  simp only [bind, StateT.bind]
  split
  · exact .inl rfl
  · exact .inr ⟨_, rfl, ⟨rfl⟩, rfl⟩

theorem halt_eq : ∃ result s, halt values m =
    (result, { exec := m.exec.setState 0 (.halted result (m.exec.task 0).state.join), host := s }) ∧
    ∃ e control s, result = (values.influenceResult (.error e) control s).1 :=
  ⟨_, _, rfl, _, _, _, rfl⟩

variable {x : Execution V E}

theorem stop_eq {before after : List Nat}
    (ho : scanOrder x = before ++ i :: after) (hb : ∀ k ∈ before, x.passes k = true)
    (hi : x.passes i = false) : x.stop = some i := by
  refine List.find?_eq_some_iff_append.mpr ⟨by rw [hi]; rfl, before, after, ho, fun k hk => ?_⟩
  rw [hb k hk]
  rfl

theorem moves_perform (hx : Forest m.exec) (hst : (m.exec.task i).state = .ready ∨
      (∃ o, (m.exec.task i).state = .returning o) ∨ ∃ j, (m.exec.task i).state = .joining j) :
    Moves image values m.exec i (perform image values i m).1 (perform image values i m).2.exec := by
  rcases hst with hst | ⟨o, hst⟩ | ⟨j, hst⟩
  · obtain ⟨v, hv⟩ := hx.input i (by rw [hst]; rfl)
    exact moves_ready image values hst hv
  · exact moves_returning image values (lt_length_of_not_free (by rw [hst]; rfl)) hst
  · exact moves_joining image values hx hst

theorem pick_eq : pick values m =
    scan values (scanOrder m.exec.quota) { m with exec := m.exec.quota } := rfl

theorem turn_eq : turn image values m =
    match (m.exec.task 0).state.terminalResult with
    | some result => (.done result, m)
    | none =>
      match pick values m with
      | (.none, m') => (.waiting, m')
      | (.cancel k t, m') => (.cancel k t, m')
      | (.selected k, m') =>
        match charge k m' with
        | (true, m'') => perform image values k m''
        | (false, m'') => (.halted (halt values m'').1, (halt values m'').2) := by
  unfold turn getExec
  simp only [bind, StateT.bind]
  cases (m.exec.task 0).state.terminalResult with
  | some result => rfl
  | none =>
    simp only [StateT.bind]
    rcases pick values m with ⟨_ | _ | k, m'⟩
    · rfl
    · rfl
    · show (if (charge k m').1 = true then perform image values k else _ :
        StateM (Machine S V E) (Turn V E)) (charge k m').2 = _
      dsimp only
      rcases charge k m' with ⟨_ | _, m''⟩ <;> rfl

theorem mem_scanOrder {k : Nat} (hk : k < x.tasks.length) : k ∈ scanOrder x := by
  unfold scanOrder
  rw [mem_map]
  have hn : 0 < x.tasks.length := Nat.lt_of_le_of_lt (Nat.zero_le _) hk
  have hc : x.cursor % x.tasks.length < x.tasks.length := Nat.mod_lt _ hn
  -- The offset that leads from the cursor to `k`, going around once.
  refine ⟨(k + x.tasks.length - x.cursor % x.tasks.length) % x.tasks.length,
    mem_range.mpr (Nat.mod_lt _ hn), ?_⟩
  rw [Nat.add_mod_mod, ← Nat.mod_add_mod]
  have hs : x.cursor % x.tasks.length +
      (k + x.tasks.length - x.cursor % x.tasks.length) = k + x.tasks.length := by omega
  rw [hs, Nat.add_mod_right, Nat.mod_eq_of_lt hk]

theorem turned_turn (hx : Forest m.exec) :
    Turned image values m.exec (turn image values m).1 (turn image values m).2.exec := by
  rw [turn_eq]
  cases hr : (m.exec.task 0).state.terminalResult with
  | some result => exact .done hr
  | none =>
    have hq : Forest (Machine.mk m.exec.quota m.host).exec := hx.quota
    have hr' : ((Machine.mk m.exec.quota m.host).exec.task 0).state.terminalResult = none := by
      show (m.exec.quota.task 0).state.terminalResult = none
      rw [state_quota, hr]
    have hl : ∀ k o j, ((Machine.mk m.exec.quota m.host).exec.task k).state ≠ .halted o j := by
      intro k o j hst
      obtain rfl := hq.halted k o j hst
      rw [hst] at hr'
      cases hr'
    have hs := scanned values hl (scanOrder m.exec.quota)
    rw [pick_eq]
    generalize hre : scan values (scanOrder m.exec.quota) _ = result at hs
    obtain ⟨result, m'⟩ := result
    cases result with
    | none =>
      obtain ⟨rfl, hp⟩ := hs
      refine .waiting hr fun k hk => hp k (mem_scanOrder ?_)
      rwa [length_quota]
    | cancel k t =>
      obtain ⟨rfl, before, after, node, ho, hb, hst, hc, hz⟩ := hs
      refine .cancel hr hst hc hz (stop_eq ho hb ?_)
      rw [passes, hst, hc, hz]
      rfl
    | selected k =>
      obtain ⟨before, after, ho, hb, hsel⟩ := hs
      have hsp : m.exec.quota.stop = some k := stop_eq ho hb hsel.not_passes
      have hm' := hq.selects hsel
      dsimp only
      rcases charge_cases m' k with hch | ⟨m'', hch, hz, -⟩ <;> rw [hch]
      · obtain ⟨result, s, hh, hre⟩ := halt_eq (m := m') values
        dsimp only
        rw [hh]
        exact .halted hr hsel (Puts.setTask _ _ _) hsp hre
      · refine .moved hr hsel hz (moves_perform image values (hm'.charges hz) ?_) hsp
        have hse := hsel.state
        rw [hz.eq]
        exact hse

end Machine
end Xolotl.Core
