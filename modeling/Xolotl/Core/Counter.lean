import Xolotl.Core.Fate

/-! The cleanup counter of a task: what it inherited from the task that forked it,
plus the cleanups on its own stack. -/

namespace Xolotl.Core

variable {S V E : Type}

namespace FrameKind

def pending : FrameKind V E → Option (Nat × V)
  | .finally_ cleanup input => some (cleanup, input)
  | _ => none

def isCleaned : FrameKind V E → Bool
  | .cleaned _ => true
  | _ => false

end FrameKind

def cleanings (stack : List (FrameKind V E)) : Nat := stack.countP FrameKind.isCleaned

@[simp] theorem cleanings_nil : cleanings ([] : List (FrameKind V E)) = 0 := rfl

theorem cleanings_append (l l' : List (FrameKind V E)) :
    cleanings (l ++ l') = cleanings l + cleanings l' := List.countP_append

theorem cleanings_cons (frame : FrameKind V E) (rest : List (FrameKind V E)) :
    cleanings (frame :: rest) = cleanings [frame] + cleanings rest :=
  cleanings_append [frame] rest

variable {image : ProgramImage V E} {t t' : Task V E} {pushed : List (FrameKind V E)}

theorem Dispatches.cleaning_eq {node : Node V E} {index : Nat} {input : V} {signal : Signal V}
    (h : Dispatches image t node index input signal t' pushed) :
    t'.cleaning = t.cleaning ∧ cleanings pushed = 0 := by
  cases h with
  | leaf => exact ⟨t.cleaning_finished _ _, rfl⟩
  | enter he =>
    generalize node.kind = kind at he
    exact ⟨rfl, by cases he <;> rfl⟩
  | request | fork => exact ⟨rfl, rfl⟩

theorem Delivers.cleaning_eq {node : Nat} {event : HostEvent V E}
    (h : Delivers image t node event t' pushed) :
    t'.cleaning = t.cleaning ∧ cleanings pushed = 0 := by
  cases h with
  | complete => exact ⟨t.cleaning_finished _ _, rfl⟩
  | enter | continue_ => exact ⟨rfl, rfl⟩

variable {values : Values S V E}

theorem Resumes.cleaning_eq {outcome : Except E V} {frame : FrameKind V E}
    (h : Resumes image values t outcome frame t' pushed) (hc : cleanings [frame] ≤ t.cleaning) :
    t'.cleaning + cleanings [frame] = t.cleaning + cleanings pushed := by
  cases h with
  | finish | continuation => exact congrArg (· + 0) (t.cleaning_finished _ _)
  | then_ | catch_ | finally_ | context | choose | bind | unbind | condition | iteration => rfl
  | cleaned => exact Nat.sub_add_cancel hc
  | passed hf => cases frame <;> first | rfl | cases hf

namespace Execution

/-- The counter a task started with: the present counter of the task that joins it. -/
def base (x : Execution V E) (i : Nat) : Nat :=
  match x.links i with
  | some p => (x.task p).cleaning
  | none => 0

variable {k : Nat} {j : JoinState} {x x' : Execution V E} {i : Nat}

theorem base_eq (hl : x'.links k = x.links k)
    (hc : ∀ p, x.links k = some p → (x'.task p).cleaning = (x.task p).cleaning) :
    x'.base k = x.base k := by
  rw [base, base, hl]
  cases hp : x.links k with
  | none => rfl
  | some p => exact hc p hp

variable {left right : Nat} {input : V}

theorem base_forks (hf : Forest x) (hx : Forks x x' i j left right input) (hkl : k ≠ j.left)
    (hkr : k ≠ j.right) : x'.links k = x.links k ∧ x'.base k = x.base k := by
  have hl : x'.links k = x.links k := hx.keeps Task.parent rfl hkl hkr
  refine ⟨hl, base_eq hl fun p hp => ?_⟩
  obtain ⟨j', hj', -⟩ := hf.parent_join hp
  obtain ⟨hpl, hpr⟩ := hx.ne_of_live (Forest.live_of_join hj')
  exact hx.keeps Task.cleaning rfl hpl hpr

theorem base_joins (hf : Forest x) (hx : Joins x x' i j t) (hl : (x.task j.left).state.join = none)
    (hr : (x.task j.right).state.join = none) (hpa : t.parent = (x.task i).parent)
    (hc : t.cleaning = (x.task i).cleaning) (hkl : k ≠ j.left) (hkr : k ≠ j.right) :
    x'.links k = x.links k ∧ x'.base k = x.base k := by
  have hli : x'.links k = x.links k := hx.keeps Task.parent hpa hkl hkr
  refine ⟨hli, base_eq hli fun p hp => ?_⟩
  exact hx.keeps Task.cleaning hc (hf.link_ne hp hl) (hf.link_ne hp hr)

/-- Every counter is what was inherited plus the cleanups on the stack. -/
def Counts (x : Execution V E) : Prop :=
  ∀ i, (x.task i).cleaning = x.base i + cleanings (x.stack i)

namespace Counts

variable {x x' : Execution V E} {i : Nat} (h : Counts x)
include h

theorem of_same (ht : ∀ k, (x'.task k).cleaning = (x.task k).cleaning)
    (hl : ∀ k, x'.links k = x.links k) (hs : ∀ k, x'.stack k = x.stack k) : Counts x' := by
  intro k
  rw [ht, base_eq (hl k) fun p _ => ht p, hs]
  exact h k

variable {t : Task V E} {j : JoinState} {values : Values S V E} {image : ProgramImage V E}
  {frames : List (FrameKind V E)} {r : Machine.Turn V E}

section

variable (hf : Forest x)
include hf

theorem puts (hx : Puts x x' i t frames) (hi : (x.task i).state.isFree = false)
    (hj : (x.task i).state.join = none) (hp : t.parent = (x.task i).parent)
    (hc : t.cleaning + cleanings (x.stack i) = (x.task i).cleaning + cleanings frames) :
    Counts x' := by
  intro k
  have hb : x'.base k = x.base k := base_eq (hx.keeps Task.parent hp k) fun p hp => by
    rw [hx.task_other (hf.link_ne hp hj)]
  rw [hb]
  by_cases hk : k = i
  · subst hk
    have hk := h k
    rw [hx.task_self (lt_length_of_not_free hi), hx.stack_self]
    omega
  · rw [hx.task_other hk, hx.stack_other hk]
    exact h k

theorem forks {left right : Nat} {input : V}
    (hx : Forks x x' i j left right input) : Counts x' := by
  have hs : (x'.task i).cleaning = (x.task i).cleaning := by rw [hx.self]
  intro k
  rw [show x'.stack k = x.stack k by rw [stack, hx.frames]; rfl]
  by_cases hkl : k = j.left
  · rw [hkl, (hf.fresh _ hx.left_free).2, base, links, hx.left_task]
    exact hs.symm
  by_cases hkr : k = j.right
  · rw [hkr, (hf.fresh _ hx.right_free).2, base, links, hx.right_task]
    exact hs.symm
  rw [hx.keeps Task.cleaning rfl hkl hkr, (base_forks hf hx hkl hkr).2]
  exact h k

theorem joins (hx : Joins x x' i j t) (hl : (x.task j.left).state.join = none)
    (hr : (x.task j.right).state.join = none) (hp : t.parent = (x.task i).parent)
    (hc : t.cleaning = (x.task i).cleaning) : Counts x' := by
  intro k
  by_cases hkl : k = j.left
  · rw [hkl, hx.left_stack, base, links, hx.left_task]
    rfl
  by_cases hkr : k = j.right
  · rw [hkr, hx.right_stack, base, links, hx.right_task]
    rfl
  rw [hx.stack_other k hkl hkr, hx.keeps Task.cleaning hc hkl hkr,
    (base_joins hf hx hl hr hp hc hkl hkr).2]
  exact h k

theorem continues (hx : Puts x x' i t frames) (hi : (x.task i).state.isRunning = true)
    (hp : t.parent = (x.task i).parent)
    (hc : t.cleaning + cleanings (x.stack i) = (x.task i).cleaning + cleanings frames) :
    Counts x' :=
  h.puts hf hx (State.not_free_of_isRunning hi) (State.join_of_isRunning hi) hp hc

omit hf in
theorem of_flags (ht : ∀ k, x.Flags x' k) (hfr : x'.frames = x.frames) : Counts x' := by
  refine h.of_same (fun k => ?_) (fun k => ?_) fun k => by rw [stack, hfr]; rfl
  all_goals obtain ⟨c, hc, -⟩ := ht k
  · rw [hc]
  · rw [links, hc]
    rfl

omit hf in
theorem cancel : Counts x.cancel :=
  h.of_flags (fun k => (x.task_cancel' k).imp fun _ hc => ⟨hc.1, hc.2.1⟩) x.frames_cancel

omit hf in
theorem quota : Counts x.quota := by
  rcases x.quota_eq with hq | hq <;> rw [hq]
  · exact h
  · exact h.cancel

theorem sweep (hj : (x.task i).state.join = some j) : Counts (x.sweep j) :=
  h.of_flags (hf.swept hj) (x.frames_sweep j)

theorem selects (hx : Selects values x i x') : Counts x' := by
  cases hx with
  | joining | failing | working => exact h
  | interrupted s hst hc hz hx =>
    refine h.continues hf hx ?_ rfl rfl
    rcases hst with hst | ⟨v, hst⟩ <;> rw [hst] <;> rfl

omit hf in
theorem charges (hx : Charges x x' i) : Counts x' := by
  rw [hx.eq]
  exact h

theorem settles {a b : Except E V}
    (hst : (x.task i).state = .joining j) (ha : (x.task j.left).state = .done a)
    (hb : (x.task j.right).state = .done b) (hx : Joins (x.sweep j) x' i j t)
    (hp : t.parent = (x.task i).parent) (hc : t.cleaning = (x.task i).cleaning) :
    Counts x' := by
  have hj : (x.task i).state.join = some j := by rw [hst]; rfl
  have hs := hf.task_sweep_self hj
  refine (h.sweep hf hj).joins (hf.sweep hj) hx ?_ ?_ ?_ ?_
  · rw [hf.state_sweep hj, ha]
    rfl
  · rw [hf.state_sweep hj, hb]
    rfl
  · rw [hs, hp]
  · rw [hs, hc]

theorem moves (hx : Moves image values x i r x') : Counts x' := by
  cases hx with
  | closed s hst hs hl hx =>
    exact h.continues hf hx (by rw [hst]; rfl) rfl (by rw [hs])
  | @resumed outcome outcome' control frame rest pushed t _ s hst hs hl hr hx =>
    refine h.continues hf hx (by rw [hst]; rfl) hr.continues.parent ?_
    have hi := h i
    rw [hs, cleanings_cons] at hi ⊢
    have hcg := hr.cleaning_eq (show cleanings [frame] ≤ (x.task i).cleaning by omega)
    change t.cleaning + _ = (x.task i).cleaning + _ at hcg
    rw [cleanings_append]
    omega
  | @stuck outcome outcome' control frame rest e _ s s' hst hs hl hne hcl he hx =>
    refine h.continues hf hx (by rw [hst]; rfl) rfl ?_
    have hzero : cleanings [frame] = 0 := by
      cases frame <;> first | rfl | exact absurd rfl (hcl _)
    rw [hs, cleanings_cons, hzero, Nat.zero_add]
    rfl
  | dispatched hst hv hn hd hro hx | requested hst hv hn hd hx =>
    obtain ⟨hc, hp⟩ := hd.cleaning_eq
    refine h.continues hf hx (by rw [hst]; rfl) (hd.continues (by simp)).parent ?_
    rw [hc, cleanings_append, hp, Nat.zero_add]
  | refused s hst hp hro he hne hx =>
    refine h.continues hf hx (by rw [hst]; rfl) rfl ?_
    rw [cleanings_append]
    rcases hp with rfl | rfl
    · rw [cleanings_nil, Nat.zero_add]
      rfl
    · rw [show cleanings [FrameKind.finish (x.task i).pc] = 0 from rfl, Nat.zero_add]
      rfl
  | @forked node left right v control j x₁ _ hst hv hn hk hj hx₁ hx =>
    exact (h.continues hf hx₁ (by rw [hst]; rfl) rfl rfl).forks (hf.forking hst hx₁) hx
  | starved s hst hn hk hfr hx => exact h.continues hf hx (by rw [hst]; rfl) rfl rfl
  | swept hst hdo => exact h.sweep hf (by rw [hst]; rfl)
  | joined s s' hst ha hb hn hx =>
    exact h.settles hf hst ha hb hx (Task.continues_finished _ _ _).parent
      (Task.cleaning_finished _ _ _)
  | broken s hst ha hb hn hx => exact h.settles hf hst ha hb hx rfl rfl

theorem turned (hx : Turned image values x r x') : Counts x' := by
  cases hx with
  | done => exact h
  | waiting | cancel => exact h.quota
  | @halted i y x' result hr hs hx =>
    have hy := h.quota.selects hf.quota hs
    exact hy.of_same (hx.keeps Task.cleaning rfl) (hx.keeps Task.parent rfl) hx.stack_eq
  | moved hr hs hz hm =>
    have hfy := hf.quota.selects hs
    exact ((h.quota.selects hf.quota hs).charges hz).moves (hfy.charges hz) hm

theorem completed {ticket : Nat} {event : HostEvent V E} {r : Except Fault Unit}
    (hx : Completed image x i ticket event r x') : Counts x' := by
  cases hx with
  | stale => exact h
  | delivered hr hst hd hro hx =>
    obtain ⟨hc, hp⟩ := hd.cleaning_eq
    refine h.continues hf hx (by rw [hst]; rfl) hd.continues.parent ?_
    rw [hc, cleanings_append, hp, Nat.zero_add]
  | refused hr hst hne he hx => exact h.continues hf hx (by rw [hst]; rfl) rfl rfl

theorem acts {a : Action V E} {r : Report V E} (hx : Acts values x a r x') : Counts x' := by
  cases hx with
  | turn hx => exact h.turned hf hx
  | complete hx => exact h.completed hf hx
  | cancel => exact h.cancel

end

omit h in
theorem started (h : Started image x) : Counts x := by
  intro i
  rw [stack_started h, base, links_started h]
  obtain ⟨tasks, frames, bindings, limits, input, context, h⟩ := h
  rw [task_new h]
  split <;> rfl

end Counts
end Execution

/-! ## Lives of tasks -/

namespace Execution

/-- How the tasks of `x` live on in `x'`: a live task keeps its parent, what it
inherited and its flag, and a new task is the child of a task that was at work. -/
structure Lineage (x x' : Execution V E) : Prop where
  links : ∀ k, (x.task k).state.isFree = false → (x'.task k).state.isFree = false →
    x'.links k = x.links k
  base : ∀ k, (x.task k).state.isFree = false → (x'.task k).state.isFree = false →
    x'.base k = x.base k
  flag : ∀ k, (x.task k).state.isFree = false → (x'.task k).state.isFree = false →
    (x.task k).cancelled = true → (x'.task k).cancelled = true
  born : ∀ k, (x.task k).state.isFree = true → (x'.task k).state.isFree = false →
    ∃ p, x'.links k = some p ∧ (x.task p).state = .ready ∧
      (x'.task p).cleaning = (x.task p).cleaning ∧
      ((x'.task p).cancelled = false ∨ 0 < (x.task p).cleaning) ∧
      (x'.task k).state = .ready ∧ (x'.task k).cancelled = false

namespace Lineage

variable {x x' : Execution V E} {i : Nat}

theorem of_same (hli : ∀ k, (x'.task k).state.isFree = (x.task k).state.isFree)
    (hl : ∀ k, x'.links k = x.links k)
    (hc : ∀ k p, x.links k = some p → (x'.task p).cleaning = (x.task p).cleaning)
    (hfl : ∀ k, (x.task k).cancelled = true → (x'.task k).cancelled = true) : Lineage x x' where
  links k _ _ := hl k
  base k _ _ := base_eq (hl k) (hc k)
  flag k _ _ := hfl k
  born k hk hk' := by
    rw [hli, hk] at hk'
    cases hk'

theorem of_flags (h : ∀ k, x.Flags x' k) : Lineage x x' := by
  refine of_same (fun k => ?_) (fun k => ?_) (fun k p hp => ?_) fun k hk => ?_
  · obtain ⟨c, hc, -⟩ := h k
    rw [hc]
  · obtain ⟨c, hc, -⟩ := h k
    rw [Execution.links, hc]
    rfl
  · obtain ⟨c, hc, -⟩ := h p
    rw [hc]
  · obtain ⟨c, hc, hke⟩ := h k
    rw [hc]
    exact hke hk

theorem refl (x : Execution V E) : Lineage x x :=
  of_same (fun _ => rfl) (fun _ => rfl) (fun _ _ _ => rfl) fun _ => id

theorem continues {frames : List (FrameKind V E)} (hf : Forest x)
    (hx : Puts x x' i t frames) (hi : (x.task i).state.isRunning = true)
    (hl : t.state.isFree = false) (hpa : t.parent = (x.task i).parent)
    (hfl : t.cancelled = (x.task i).cancelled) : Lineage x x' := by
  have hfr := State.not_free_of_isRunning hi
  refine of_same (hx.keeps (·.state.isFree) (hl.trans hfr.symm))
    (hx.keeps Task.parent hpa) (fun k p hp => ?_) fun k hk => ?_
  · rw [hx.task_other (hf.link_ne hp (State.join_of_isRunning hi))]
  · rw [hx.keeps Task.cancelled hfl]
    exact hk

variable {j : JoinState} {values : Values S V E}

theorem sweep (hf : Forest x) (hj : (x.task i).state.join = some j) : Lineage x (x.sweep j) := by
  exact of_flags (hf.swept hj)

theorem settles {a b : Except E V} (hf : Forest x)
    (hst : (x.task i).state = .joining j) (ha : (x.task j.left).state = .done a)
    (hb : (x.task j.right).state = .done b) (hx : Joins (x.sweep j) x' i j t)
    (hp : t.parent = (x.task i).parent) (hc : t.cleaning = (x.task i).cleaning)
    (hfl : t.cancelled = (x.task i).cancelled) : Lineage x x' := by
  have hj : (x.task i).state.join = some j := by rw [hst]; rfl
  have hs := hf.state_sweep hj
  have hse := hf.task_sweep_self hj
  have hsw := sweep hf hj
  have hba : ∀ {k}, (x'.task k).state.isFree = false →
      x'.links k = (x.sweep j).links k ∧ x'.base k = (x.sweep j).base k := fun hk =>
    base_joins (hf.sweep hj) hx (by rw [hs, ha]; rfl) (by rw [hs, hb]; rfl)
      (by rw [hse, hp]) (by rw [hse, hc]) (hx.ne_of_live hk).1 (hx.ne_of_live hk).2
  refine ⟨fun k hk hk' => ?_, fun k hk hk' => ?_, fun k hk hk' hck => ?_, fun k hk hk' => ?_⟩
  · rw [(hba hk').1]
    exact hsw.links k hk (by rw [hs, hk])
  · rw [(hba hk').2]
    exact hsw.base k hk (by rw [hs, hk])
  · obtain ⟨hkl, hkr⟩ := hx.ne_of_live hk'
    rw [hx.keeps Task.cancelled (by rw [hse, hfl]) hkl hkr]
    exact hsw.flag k hk (by rw [hs, hk]) hck
  · have hki : k ≠ i := by
      rintro rfl
      rw [hst] at hk
      cases hk
    obtain ⟨hkl, hkr⟩ := hx.ne_of_live hk'
    rw [hx.other k hki hkl hkr, hs, hk] at hk'
    cases hk'

theorem forks {left right : Nat} {input : V} (hf : Forest x)
    (hx : Forks x x' i j left right input) (hst : (x.task i).state = .ready)
    (hw : (x.task i).cancelled = false ∨ 0 < (x.task i).cleaning) : Lineage x x' := by
  have hs : (x'.task i).cleaning = (x.task i).cleaning := by rw [hx.self]
  refine ⟨fun k hk _ => ?_, fun k hk _ => ?_, fun k hk _ hck => ?_, fun k hk hk' => ?_⟩
  · obtain ⟨hkl, hkr⟩ := hx.ne_of_live hk
    exact (base_forks hf hx hkl hkr).1
  · obtain ⟨hkl, hkr⟩ := hx.ne_of_live hk
    exact (base_forks hf hx hkl hkr).2
  · obtain ⟨hkl, hkr⟩ := hx.ne_of_live hk
    rw [hx.keeps Task.cancelled rfl hkl hkr]
    exact hck
  · have hc : ∃ pc, x'.task k = x.child i k pc input := by
      by_cases hkl : k = j.left
      · exact ⟨left, by rw [hkl, hx.left_task]⟩
      by_cases hkr : k = j.right
      · exact ⟨right, by rw [hkr, hx.right_task]⟩
      have hki : k ≠ i := by
        rintro rfl
        rw [hst] at hk
        cases hk
      rw [hx.other k hki hkl hkr, hk] at hk'
      cases hk'
    obtain ⟨pc, hc⟩ := hc
    refine ⟨i, by rw [Execution.links, hc]; rfl, hst, hs, ?_, by rw [hc]; rfl, ?_⟩
    · rw [hx.self]
      exact hw
    · rw [hc, child, (hf.fresh k hk).1]

variable {z : Execution V E} {r : Machine.Turn V E}

theorem of_alike (h : Lineage z x') (hl : ∀ k, (z.task k).state.isFree = (x.task k).state.isFree)
    (hr : ∀ k, (z.task k).state = .ready → (x.task k).state = .ready)
    (hli : ∀ k, z.links k = x.links k) (hc : ∀ k, (z.task k).cleaning = (x.task k).cleaning)
    (hfl : ∀ k, (x.task k).cancelled = true → (z.task k).cancelled = true) : Lineage x x' where
  links k hk hk' := by rw [h.links k (by rw [hl, hk]) hk', hli]
  base k hk hk' := by rw [h.base k (by rw [hl, hk]) hk', base_eq (hli k) fun p _ => hc p]
  flag k hk hk' hck := h.flag k (by rw [hl, hk]) hk' (hfl k hck)
  born k hk hk' := by
    obtain ⟨p, hp, hst, hcl, hw⟩ := h.born k (by rw [hl, hk]) hk'
    rw [hc] at hcl hw
    exact ⟨p, hp, hr p hst, hcl, hw⟩

theorem of_picked {y : Execution V E} (h : Lineage z x')
    (hs : Selects values x.quota i y) (hz : ∀ k, z.task k = y.task k) : Lineage x x' := by
  have hp : ∀ k, ∃ state c, z.task k = { x.task k with state, cancelled := c } ∧
      ((x.task k).cancelled = true → c = true) ∧ (state = (x.task k).state ∨
        ((x.task k).state = .ready ∨ ∃ v, (x.task k).state = .returning (.ok v)) ∧
        ∃ o, state = .returning o) := by
    intro k
    obtain ⟨state, c, hk, hc, hst⟩ := picked_task hs k
    refine ⟨state, c, by rw [hz, hk], hc, ?_⟩
    rcases hst with h | ⟨-, -, -, hw, s, rfl⟩
    · exact Or.inl h
    · exact Or.inr ⟨hw, _, rfl⟩
  refine h.of_alike (fun k => ?_) (fun k hk => ?_) (fun k => ?_) (fun k => ?_) fun k hk => ?_ <;>
    obtain ⟨state, c, ht, hc, hst⟩ := hp k
  · rw [ht]
    rcases hst with rfl | ⟨hr | ⟨v, hr⟩, o, rfl⟩
    · rfl
    · rw [hr]
      rfl
    · rw [hr]
      rfl
  · rw [ht] at hk
    rcases hst with rfl | ⟨-, o, rfl⟩
    · exact hk
    · cases hk
  · rw [Execution.links, ht]
    rfl
  · rw [ht]
  · rw [ht]
    exact hc hk

theorem moves (hf : Forest x) (hx : Moves image values x i r x')
    (hw : (x.task i).state = .ready → (x.task i).cancelled = false ∨ 0 < (x.task i).cleaning) :
    Lineage x x' := by
  cases hx.course with
  | closed s hst hs hl hx => exact continues hf hx (by rw [hst]; rfl) rfl rfl rfl
  | goes hi hx ht hd =>
    exact continues hf hx hi (State.not_free_of_isRunning ht.running) ht.parent ht.cancelled
  | @forks node left right v control j x₁ _ hst hn hk hj hx₁ hx =>
    have hse := hx₁.task_self (lt_length_of_not_free (x := x) (i := i) (by rw [hst]; rfl))
    have hf₁ := hf.forking hst hx₁
    refine (forks hf₁ hx (by rw [hse, hst]) ?_).of_alike (hx₁.keeps (·.state.isFree) rfl)
      (fun k hk => ?_) (hx₁.keeps Task.parent rfl) (hx₁.keeps Task.cleaning rfl) fun k hk => ?_
    · rw [hse]
      exact hw hst
    · rwa [hx₁.keeps Task.state rfl] at hk
    · rwa [hx₁.keeps Task.cancelled rfl]
  | sweeps hst => exact sweep hf (by rw [hst]; rfl)
  | settles hst ha hb hx ht hc => exact settles hf hst ha hb hx ht.parent hc ht.cancelled

theorem cancel (x : Execution V E) : Lineage x x.cancel :=
  of_flags fun k => (x.task_cancel' k).imp fun _ hc => ⟨hc.1, hc.2.1⟩

theorem quota (x : Execution V E) : Lineage x x.quota := of_flags x.task_quota

theorem turned (hf : Forest x) (h : Turned image values x r x') : Lineage x x' := by
  cases h with
  | done => exact refl x
  | waiting | cancel => exact quota x
  | @halted i y _ result hr hs hx =>
    have hl : false = (y.task 0).state.isFree := (hf.quota.selects hs).root_live.symm
    have hlast : Lineage y x' := of_same (hx.keeps (·.state.isFree) hl)
      (hx.keeps Task.parent rfl) (fun k p _ => hx.keeps Task.cleaning rfl p)
      fun k hk => by rw [hx.keeps Task.cancelled rfl, hk]
    exact hlast.of_picked hs fun _ => rfl
  | moved hr hs hz hm =>
    have hzf := (hf.quota.selects hs).charges hz
    exact (moves hzf hm (picked_ready hs hz)).of_picked hs hz.task_eq

theorem base_born (h : Lineage x x') (hc : Counts x) (hf : Forest x') {k p : Nat}
    (hk : (x.task k).state.isFree = true) (hp : x'.links k = some p)
    (hm : (x.task p).cancelled = true ∨ 0 < x.base p) : 0 < x'.base k := by
  obtain ⟨q, hq, hr, hs, hw, -⟩ := h.born k hk (hf.live_of_link hp)
  cases hq.symm.trans hp
  have hcl : 0 < (x.task p).cleaning := by
    rcases hm with hfl | hb
    · obtain ⟨j, hj, -⟩ := hf.parent_join hp
      have hfl' := h.flag p (by rw [hr]; rfl) (Forest.live_of_join hj) hfl
      rcases hw with hw | hw
      · rw [hfl'] at hw
        cases hw
      · exact hw
    · have hcn := hc p
      omega
  rw [Execution.base, hp]
  show 0 < (x'.task p).cleaning
  rw [hs]
  exact hcl

theorem acts {a : Action V E} {r : Report V E} (hf : Forest x)
    (h : Acts values x a r x') : Lineage x x' := by
  cases h with
  | turn h => exact turned hf h
  | cancel => exact cancel x
  | complete h =>
    cases h with
    | stale => exact refl x
    | delivered hr hst hd hro hx =>
      have ht := hd.continues
      exact continues hf hx (by rw [hst]; rfl) (State.not_free_of_isRunning ht.running) ht.parent
        ht.cancelled
    | refused hr hst hne he hx =>
      exact continues hf hx (by rw [hst]; rfl) (by rw [hst]; rfl) rfl rfl

end Lineage
end Execution

theorem Run.counts {x₀ x : Execution V E}
    {history : List (Record S V E)} (h : Run values x₀ history x) (h₀ : x₀.Forest)
    (hc : x₀.Counts) : x.Counts := by
  induction h with
  | nil => exact hc
  | cons r hr he hok ih =>
    subst he
    exact ih.acts (hr.forest h₀) (r.acts values (hr.forest h₀))

end Xolotl.Core
