import Xolotl.Core.Turns

/-! Runs of a machine: turns, answers and cancellations in any order, with any
images and host states. A record keeps the machine before each call; what the
call reported and left follows from it. -/

namespace Xolotl.Core

open List

variable {S V E : Type}

namespace Execution

structure Fixed (x x' : Execution V E) : Prop where
  limits : x'.limits = x.limits
  imageId : x'.imageId = x.imageId
  length : x'.tasks.length = x.tasks.length
  capacity : x'.frames.capacity = x.frames.capacity

namespace Fixed

variable {x x' x'' : Execution V E} {i : Nat}

theorem refl (x : Execution V E) : Fixed x x := ⟨rfl, rfl, rfl, rfl⟩

theorem trans (h : Fixed x x') (h' : Fixed x' x'') : Fixed x x'' :=
  ⟨h'.limits.trans h.limits, h'.imageId.trans h.imageId, h'.length.trans h.length,
    h'.capacity.trans h.capacity⟩

variable {t : Task V E} {r : Machine.Turn V E}

theorem puts {frames : List (FrameKind V E)} (h : Puts x x' i t frames) : Fixed x x' :=
  ⟨h.limits, h.imageId, h.length, h.frames.capacity⟩

theorem joins {j : JoinState} (h : Joins x x' i j t) : Fixed x x' :=
  ⟨h.limits, h.imageId, h.length, h.capacity⟩

theorem cancel (x : Execution V E) : Fixed x x.cancel := by
  refine ⟨x.limits_cancel, ?_, x.length_cancel, by rw [frames_cancel]⟩
  unfold Execution.cancel
  split <;> rfl

theorem quota (x : Execution V E) : Fixed x x.quota := by
  rcases x.quota_eq with h | h <;> rw [h]
  · exact refl x
  · exact cancel x

theorem sweep (x : Execution V E) (j : JoinState) : Fixed x (x.sweep j) := by
  refine ⟨?_, ?_, x.length_sweep j, by rw [frames_sweep]⟩
  · unfold Execution.sweep
    dsimp only
    split <;> rfl
  · unfold Execution.sweep
    dsimp only
    split <;> rfl

variable {values : Values S V E} {image : ProgramImage V E}

theorem selects (h : Selects values x i x') : Fixed x x' := by
  cases h with
  | joining | failing | working => exact refl x
  | interrupted s hst hc hz hx => exact puts hx

theorem charges (h : Charges x x' i) : Fixed x x' := by
  rw [h.eq]
  exact ⟨rfl, rfl, rfl, rfl⟩

theorem moves (h : Moves image values x i r x') : Fixed x x' := by
  cases h.course with
  | closed s hst hs hl hx | goes hi hx ht hd => exact puts hx
  | forks hst hn hk hj hx₁ hx =>
    exact (puts hx₁).trans ⟨hx.limits, hx.imageId, hx.length, by rw [hx.frames]⟩
  | sweeps hst => exact sweep x _
  | settles hst ha hb hx => exact (sweep x _).trans (joins hx)

theorem turned (h : Turned image values x r x') : Fixed x x' := by
  cases h with
  | done => exact refl x
  | waiting | cancel => exact quota x
  | halted hr hs hx => exact (quota x).trans ((selects hs).trans (puts hx))
  | moved hr hs hz hm =>
    exact (quota x).trans ((selects hs).trans ((charges hz).trans (moves hm)))

theorem completed {ticket : Nat} {event : HostEvent V E}
    {r : Except Fault Unit} (h : Completed image x i ticket event r x') : Fixed x x' := by
  cases h with
  | stale => exact refl x
  | delivered hr hst hd hro hx | refused hr hst hne he hx => exact puts hx

end Fixed
end Execution

/-! ## Calls -/

inductive Action (V E : Type)
  | turn (image : ProgramImage V E)
  | complete (image : ProgramImage V E) (task ticket : Nat) (event : HostEvent V E)
  | cancel

inductive Report (V E : Type)
  | turn (result : Machine.Turn V E)
  | complete (result : Except Fault Unit)
  | cancel

def Action.Admitted (x : Execution V E) : Action V E → Prop
  | .turn image => image.id = x.imageId
  | _ => True

variable (image : ProgramImage V E)

def Action.Uses : Action V E → Prop
  | .turn used => used = image
  | .complete used _ _ _ => used = image
  | .cancel => True

namespace Machine

variable (values : Values S V E)

def act : Action V E → StateM (Machine S V E) (Report V E)
  | .turn image => do return .turn (← turn image values)
  | .complete image task ticket event => do
    return .complete (← complete image values task ticket event)
  | .cancel => do
    cancel
    return .cancel

end Machine

namespace Execution

inductive Acts (values : Values S V E) (x : Execution V E) :
    Action V E → Report V E → Execution V E → Prop
  | turn {image : ProgramImage V E} {r : Machine.Turn V E} {x' : Execution V E}
      (h : Turned image values x r x') : Acts values x (.turn image) (.turn r) x'
  | complete {image : ProgramImage V E} {i ticket : Nat} {event : HostEvent V E}
      {r : Except Fault Unit} {x' : Execution V E} (h : Completed image x i ticket event r x') :
      Acts values x (.complete image i ticket event) (.complete r) x'
  | cancel : Acts values x .cancel .cancel x.cancel

variable {values : Values S V E} {x x' : Execution V E} {a : Action V E} {r : Report V E}

theorem Forest.acts (h : Forest x) (hx : Acts values x a r x') : Forest x' := by
  cases hx with
  | turn hx => exact h.turned hx
  | complete hx => exact h.completed hx
  | cancel => exact h.cancel

theorem Fixed.acts (h : Acts values x a r x') : Fixed x x' := by
  cases h with
  | turn h => exact .turned h
  | complete h => exact .completed h
  | cancel => exact .cancel x

end Execution

variable {m : Machine S V E}

theorem Machine.acts_act (values : Values S V E) (hx : m.exec.Forest)
    (a : Action V E) : m.exec.Acts values a (act values a m).1 (act values a m).2.exec := by
  cases a with
  | turn image => exact .turn (turned_turn image values hx)
  | complete image i ticket event =>
    exact .complete (completed_complete image values hx ticket event)
  | cancel => exact .cancel

/-! ## Histories -/

structure Record (S V E : Type) where
  before : Machine S V E
  action : Action V E

namespace Record

variable (values : Values S V E) (r : Record S V E)

def report : Report V E := (Machine.act values r.action r.before).1

def after : Machine S V E := (Machine.act values r.action r.before).2

end Record

theorem Record.acts (r : Record S V E) (values : Values S V E) (hf : r.before.exec.Forest) :
    r.before.exec.Acts values r.action (r.report values) (r.after values).exec :=
  Machine.acts_act values hf r.action

/-- The calls made since `x₀`, the last one first. Between calls the host may do
what it likes with its own state. -/
inductive Run (values : Values S V E) (x₀ : Execution V E) :
    List (Record S V E) → Execution V E → Prop
  | nil : Run values x₀ [] x₀
  | cons {history : List (Record S V E)} {x : Execution V E} (r : Record S V E)
      (hrun : Run values x₀ history x) (hexec : r.before.exec = x)
      (hok : r.action.Admitted x) : Run values x₀ (r :: history) (r.after values).exec

def Started (x₀ : Execution V E) : Prop :=
  ∃ tasks frames bindings limits input context,
    Execution.new image tasks frames bindings limits input context = .ok x₀

namespace Execution

variable {image : ProgramImage V E} {x : Execution V E} {tasks frames bindings context : Nat}
  {limits : ExecutionLimits} {input : V}

theorem new_ok (h : new image tasks frames bindings limits input context = .ok x) :
    0 < tasks ∧ ∃ hf : frames ≤ noFrame, x = {
      tasks := (List.replicate tasks {}).set 0
        { state := .ready, pc := image.entry, input := some input, context }
      frames := .new frames hf
      bindings := List.replicate bindings none
      limits
      imageId := image.id } := by
  unfold new at h
  split at h
  · cases h
  · split_ifs at h with ht hf hb
    exact ⟨by omega, hf, (Except.ok.inj h).symm⟩

theorem task_new (h : new image tasks frames bindings limits input context = .ok x) (i : Nat) :
    x.task i = if i = 0 then { state := .ready, pc := image.entry, input := some input, context }
      else {} := by
  obtain ⟨hpos, hf, rfl⟩ := new_ok h
  by_cases hi : i = 0
  · subst hi
    simp [task, hpos]
  · rw [task, List.getElem?_set_ne (Ne.symm hi), List.getElem?_replicate]
    split <;> rfl

theorem stack_started (h : Started image x) (i : Nat) : x.stack i = [] := by
  obtain ⟨tasks, frames, bindings, limits, input, context, h⟩ := h
  obtain ⟨-, -, rfl⟩ := new_ok h
  rfl

theorem links_started (h : Started image x) (i : Nat) : x.links i = none := by
  obtain ⟨tasks, frames, bindings, limits, input, context, h⟩ := h
  rw [links, task_new h]
  split <;> rfl

theorem Forest.started (h : Started image x) : Forest x := by
  have hs := stack_started h
  have hl := links_started h
  obtain ⟨tasks, frames, bindings, limits, input, context, h⟩ := h
  have ht := task_new h
  have hjo : ∀ i, (x.task i).state.join = none := by
    intro i
    rw [ht]
    split <;> rfl
  refine ⟨?_, hl 0, ?_, ?_, ?_, ?_, ?_, ?_, ?_, ?_⟩
  · rw [ht]
    rfl
  · intro i hi
    rw [ht] at hi ⊢
    split at hi
    · cases hi
    · next h0 => exact ⟨if_neg h0, hs i⟩
  · intro i hi
    rw [ht] at hi ⊢
    split at hi
    · next h0 => exact ⟨input, by rw [if_pos h0]⟩
    · cases hi
  · intro i h0 hi
    rw [ht, if_neg h0] at hi
    cases hi
  · intro p j hj
    rw [hjo] at hj
    cases hj
  · intro i o j hst
    rw [ht] at hst
    split at hst <;> cases hst
  · intro i o hst
    exact hs i
  · intro i
    rw [hs]
    exact Nat.zero_le _
  · exact fun i => Walk.ends_of_none (hl i)

end Execution

namespace Run

variable {values : Values S V E} {x₀ x : Execution V E} {history : List (Record S V E)}

theorem forest (h : Run values x₀ history x) (h₀ : x₀.Forest) : x.Forest := by
  induction h with
  | nil => exact h₀
  | cons r hr he hok ih =>
    subst he
    exact ih.acts (r.acts values ih)

variable {r : Record S V E}

theorem of_suffix (h : Run values x₀ history x) {older : List (Record S V E)}
    (hr : r :: older <:+ history) : Run values x₀ (r :: older) (r.after values).exec := by
  induction h with
  | nil => cases suffix_nil.mp hr
  | cons r' hru he hok ih =>
    rcases suffix_cons_iff.mp hr with heq | hr
    · obtain ⟨rfl, rfl⟩ := List.cons.inj heq
      exact .cons r hru he hok
    · exact ih hr

theorem of_mem (h : Run values x₀ history x) (hr : r ∈ history) :
    ∃ older, Run values x₀ older r.before.exec := by
  obtain ⟨newer, older, rfl⟩ := append_of_mem hr
  cases h.of_suffix (suffix_append newer (r :: older)) with
  | cons _ hru he => exact ⟨older, he ▸ hru⟩

theorem fixed (h : Run values x₀ history x) (h₀ : x₀.Forest) : x₀.Fixed x := by
  induction h with
  | nil => exact .refl x₀
  | cons r hr he hok ih =>
    subst he
    exact ih.trans (.acts (r.acts values (hr.forest h₀)))

end Run

/-! ## Advancing -/

namespace Machine

def Turn.answer : Turn V E → Option (Advance V E)
  | .request r => some (.request r)
  | .cancel task t => some (.cancel task t)
  | .waiting => some .waiting
  | .done result => some (.done result)
  | .halted result => some (.done result)
  | .moved => none
  | .faulted _ => none

theorem advanceLoop_succ (image : ProgramImage V E) (values : Values S V E) (fuel : Nat)
    (m : Machine S V E) : advanceLoop image values (fuel + 1) m =
      match (turn image values m).1.answer with
      | some result => (result, (turn image values m).2)
      | none => advanceLoop image values fuel (turn image values m).2 := by
  rw [advanceLoop]
  simp only [bind, StateT.bind]
  rcases turn image values m with ⟨_ | _ | _ | _ | _ | _ | _, m'⟩ <;> rfl

variable {image : ProgramImage V E}

theorem advance_eq_advanceLoop (values : Values S V E) (hid : image.id = m.exec.imageId)
    (fuel : Nat) : advance image values fuel m = advanceLoop image values fuel m := by
  show (if image.id ≠ m.exec.imageId then _ else _ : StateM (Machine S V E) _) m = _
  rw [if_neg (fun h => h hid)]

theorem advance_mismatch (values : Values S V E) (hid : image.id ≠ m.exec.imageId) (fuel : Nat) :
    ∃ result, (advance image values fuel m).1 = .done result := by
  show ∃ result, ((if image.id ≠ m.exec.imageId then _ else _ : StateM (Machine S V E) _) m).1 = _
  rw [if_pos hid]
  exact ⟨_, rfl⟩

end Machine

variable {values : Values S V E} {x₀ : Execution V E} {history : List (Record S V E)}

theorem Run.advanceLoop {image : ProgramImage V E}
    (h : Run values x₀ history m.exec) (h₀ : x₀.Forest) (hid : image.id = m.exec.imageId)
    (fuel : Nat) : ∃ turns : List (Record S V E),
      Run values x₀ (turns ++ history) (Machine.advanceLoop image values fuel m).2.exec ∧
      (∀ r ∈ turns, r.action = .turn image) ∧ turns.length ≤ fuel ∧
      ((Machine.advanceLoop image values fuel m).1 = .yielded ∨ ∃ r rest t, turns = r :: rest ∧
        r.report values = .turn t ∧
        t.answer = some (Machine.advanceLoop image values fuel m).1) := by
  induction fuel generalizing history m with
  | zero => exact ⟨[], h, by simp, Nat.zero_le _, .inl rfl⟩
  | succ fuel ih =>
    have hru : Run values x₀ (⟨m, .turn image⟩ :: history) (Machine.turn image values m).2.exec :=
      .cons ⟨m, .turn image⟩ h rfl hid
    rw [Machine.advanceLoop_succ]
    cases han : (Machine.turn image values m).1.answer with
    | some result =>
      exact ⟨[⟨m, .turn image⟩], hru, by simp, by simp, .inr ⟨_, [], _, rfl, rfl, han⟩⟩
    | none =>
      have htn := Machine.turned_turn image values (h.forest h₀)
      obtain ⟨turns, htu, ha, hl, hlast⟩ :=
        ih hru (hid.trans (Execution.Fixed.turned htn).imageId.symm)
      refine ⟨turns ++ [⟨m, .turn image⟩], ?_, ?_, ?_, ?_⟩
      · rw [append_assoc]
        exact htu
      · intro r hr
        rcases mem_append.mp hr with hr | hr
        · exact ha r hr
        · rw [mem_singleton.mp hr]
      · rw [length_append]
        exact Nat.succ_le_succ hl
      · rcases hlast with hy | ⟨r, rest, t, rfl, hr, ht⟩
        · exact .inl hy
        · exact .inr ⟨r, rest ++ [⟨m, .turn image⟩], t, rfl, hr, ht⟩

/-! ## Replaying -/

def replay (values : Values S V E) :
    List (Action V E) → List (Record S V E) → Machine S V E → List (Record S V E) × Machine S V E
  | [], history, m => (history, m)
  | a :: actions, history, m => replay values actions (⟨m, a⟩ :: history) (Machine.act values a m).2

variable {actions : List (Action V E)}

theorem Run.replay (h : Run values x₀ history m.exec) (h₀ : x₀.Forest)
    (hok : ∀ a ∈ actions, a.Admitted x₀) :
    Run values x₀ (replay values actions history m).1 (replay values actions history m).2.exec := by
  induction actions generalizing history m with
  | nil => exact h
  | cons a actions ih =>
    have hid := (h.fixed h₀).imageId
    have had : a.Admitted m.exec := by
      have ha := hok a mem_cons_self
      cases a with
      | turn image => exact ha.trans hid.symm
      | complete | cancel => trivial
    exact ih (.cons ⟨m, a⟩ h rfl had) fun a ha => hok a (mem_cons_of_mem _ ha)

theorem replay_all (P : Action V E → Prop) (h : ∀ r ∈ history, P r.action)
    (ha : ∀ a ∈ actions, P a) : ∀ r ∈ (replay values actions history m).1, P r.action := by
  induction actions generalizing history m with
  | nil => exact h
  | cons a actions ih =>
    refine ih (fun r hr => ?_) fun a ha' => ha a (mem_cons_of_mem _ ha')
    rcases mem_cons.mp hr with rfl | hr
    · exact ha a mem_cons_self
    · exact h r hr

def numbers : Values Unit Int Fault where
  unit := pure 0
  truth value :=
    pure (if value = 0 then .ok false else if value = 1 then .ok true else .error .type)
  pair a b := pure (.ok (a * 100 + b))
  error fault := pure fault
  errorValue _ := pure (-1)

inductive Call (V E : Type)
  | turn
  | complete (task ticket : Nat) (event : HostEvent V E)
  | cancel

def Call.on : Call V E → Action V E
  | .turn => .turn image
  | .complete task ticket event => .complete image task ticket event
  | .cancel => .cancel

theorem Call.uses (c : Call V E) : (c.on image).Uses image := by
  cases c with
  | turn | complete => rfl
  | cancel => trivial

def trial (image : ProgramImage Int Fault) (tasks frames : Nat) (calls : List (Call Int Fault)) :
    Option (List (Record Unit Int Fault) × Machine Unit Int Fault) :=
  match Execution.new image tasks frames 0 { bindingsPerTask := 0 } 7 0 with
  | .ok x => some (replay numbers (calls.map (Call.on image)) [] ⟨x, ()⟩)
  | .error _ => none

theorem run_of_trial (image : ProgramImage Int Fault) (tasks frames : Nat)
    (calls : List (Call Int Fault))
    (P : List (Record Unit Int Fault) → Machine Unit Int Fault → Bool)
    (h : (trial image tasks frames calls).any (fun p => P p.1 p.2) = true) :
    ∃ x₀ history m, Started image x₀ ∧ Run numbers x₀ history m.exec ∧
      (∀ r ∈ history, r.action.Uses image) ∧ P history m = true := by
  unfold trial at h
  split at h
  · next x hx =>
    have hs : Started image x := ⟨_, _, _, _, _, _, hx⟩
    refine ⟨x, _, _, hs, ?_, ?_, h⟩
    · refine Run.replay (m := ⟨x, ()⟩) .nil (.started hs) fun a ha => ?_
      obtain ⟨-, hf, rfl⟩ := Execution.new_ok hx
      obtain ⟨c, -, rfl⟩ := mem_map.mp ha
      cases c with
      | turn => rfl
      | complete | cancel => trivial
    · refine replay_all (fun a => a.Uses image) (by simp) fun a ha => ?_
      obtain ⟨c, -, rfl⟩ := mem_map.mp ha
      exact c.uses image
  · cases h

end Xolotl.Core
