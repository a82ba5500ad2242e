import Xolotl.Core.Counter

/-! A race goes to the branch that is done at its first join step, as long as the
flag of its left branch, from which the machine reads the winner, is left to the
race itself. -/

namespace Xolotl.Core

open List

variable {S V E : Type}

namespace Values

/-- The result of a race that goes to `outcome`: both branches only add their control. -/
def contended (values : Values S V E) (outcome a b : Except E V) : StateM S (Except E V) := do
  let leftControl ← values.retainResult a
  let rightControl ← values.retainResult b
  let control ← values.influence leftControl rightControl
  values.influenceResult outcome control

end Values

def Machine.Turn.isStep : Machine.Turn V E → Bool
  | .moved => true
  | .faulted _ => true
  | _ => false

def State.isJoining : State V E → Bool
  | .joining _ => true
  | _ => false

namespace Execution

variable {values : Values S V E} {x x' : Execution V E} {p : Nat} {j : JoinState}

theorem flag_quota {k : Nat} (hk : (x.task k).state.isDone = true) :
    (x.quota.task k).cancelled = (x.task k).cancelled := by
  rcases x.quota_eq with h | h <;> rw [h]
  by_cases ht : (x.task 0).state.terminalResult.isSome = true
  · rw [cancel_terminal ht]
  · obtain ⟨o, ho⟩ := State.done_of_isDone hk
    rw [task_cancel x (by simpa using ht), ho]
    exact Bool.or_false _

theorem Forest.sweep_left (hf : Forest x) (hj : (x.task p).state.join = some j)
    (hl : (x.task j.left).state.isDone = true) :
    ((x.sweep j).task j.left).cancelled = (x.task j.left).cancelled := by
  obtain ⟨hne, hc⟩ := hf.joined p j hj
  obtain ⟨hli, hr⟩ := hc j.right (.inr rfl)
  have hb : x.descends j.right x.tasks.length (x.task j.left).parent = false := by
    rw [← Bool.not_eq_true, hf.descends_iff]
    rintro ⟨q, hq, hv⟩
    obtain rfl := Option.some.inj (hq.symm.trans (hc j.left (.inl rfl)).2)
    exact (hf.ends j.right).not_visits hr hv
  unfold Execution.sweep
  dsimp only
  split
  · rw [task_cancelTree x (lt_length_of_not_free hli), hb, decide_eq_false hne]
    simp
  · rfl

theorem sweep_right (hlt : j.left < x.tasks.length) (hra : j.join = .race)
    (hl : (x.task j.left).state.isDone = false) (hr : (x.task j.right).state.isDone = true) :
    ((x.sweep j).task j.left).cancelled = true := by
  unfold sweep
  rw [hl, hr, if_pos ⟨hra, rfl⟩, if_neg (by decide), task_cancelTree x hlt]
  simp

variable {image : ProgramImage V E} {t : Machine.Turn V E}

theorem Turned.actor
    (h : Turned image values x t x') (ht : t.isStep = true) (hs : x.quota.stop = some p) :
    ∃ y z, (x.task 0).state.terminalResult = none ∧ Selects values x.quota p y ∧
      Charges y z p ∧ Moves image values z p t x' := by
  cases h with
  | moved hr hse hz hm hs' =>
    obtain rfl := Option.some.inj (hs'.symm.trans hs)
    exact ⟨_, _, hr, hse, hz, hm⟩
  | _ => cases ht

theorem Selects.of_joining {y : Execution V E} (h : Selects values x p y)
    (hst : (x.task p).state = .joining j) : y = x ∧ x.ready p = true := by
  cases h with
  | joining _ hr => exact ⟨rfl, hr⟩
  | failing hst' => rw [hst] at hst'; cases hst'
  | working hst' | interrupted _ hst' =>
    rcases hst' with hst' | ⟨v, hst'⟩ <;> rw [hst] at hst' <;> cases hst'

theorem Moves.joins (hf : Forest x)
    (h : Moves image values x p t x') (hst' : (x'.task p).state = .joining j) :
    (x.task p).state = .joining j ∨ (x.task p).state = .ready ∧
      (x'.task j.left).cancelled = false ∧ ∃ node left right, image.node (x.task p).pc = .ok node ∧
        node.kind = .fork left right j.join ∧ j.node = (x.task p).pc := by
  have hr : ∀ {u u' : Task V E}, x'.task p = u → u'.Continues u → False := by
    intro u u' hu hc
    have hno := State.join_of_isRunning hc.running
    rw [← hu, hst'] at hno
    cases hno
  have hlt : ∀ {st}, (x.task p).state = st → st.isFree = false → p < x.tasks.length :=
    fun hst hfr => lt_length_of_not_free (by rw [hst]; exact hfr)
  cases h.course with
  | closed s hst hs hl hx => rw [hx.task_self (hlt hst rfl)] at hst'; cases hst'
  | goes hi hx ht hd =>
    exact (hr (hx.task_self (lt_length_of_not_free (State.not_free_of_isRunning hi))) ht).elim
  | @forks node left right v control j' x₁ _ hst hn hk hj hx₁ hx =>
    rw [hx.self] at hst'
    cases hst'
    refine .inr ⟨hst, ?_, node, left, right, hn, hk, hj⟩
    have hfr := hx.left_free
    have hne : j.left ≠ p := by
      intro heq
      rw [heq, hx₁.task_self (hlt hst rfl), hst] at hfr
      cases hfr
    rw [hx₁.task_other hne] at hfr
    rw [hx.left_task, child, hx₁.task_other hne, (hf.fresh _ hfr).1]
  | sweeps hst =>
    rw [hf.task_sweep_self (by rw [hst]; rfl)] at hst'
    exact .inl hst'
  | settles hst ha hb hx ht => exact (hr hx.self ht).elim

theorem Moves.of_joining
    (h : Moves image values x p t x') (hst : (x.task p).state = .joining j) : t.isStep = true ∧
    (x' = x.sweep j ∧ ((x.task j.left).state.isDone && (x.task j.right).state.isDone) = false ∨
    ∃ a b u, (x.task j.left).state = .done a ∧ (x.task j.right).state = .done b ∧
      Joins (x.sweep j) x' p j u ∧ u.state.isRunning = true ∧
      ∀ instruction, image.node j.node = .ok instruction → ∃ s s', u =
        (x.task p).finished instruction.next (values.coloredResult
          (values.settled j.join ((x.sweep j).task j.left).cancelled a b s).1
          (x.task p).input s').1) := by
  have hs : ∀ {j'}, (x.task p).state = .joining j' → j' = j := by
    intro j' hst'
    rw [hst] at hst'
    exact (State.joining.inj hst').symm
  cases h with
  | swept hst' hd =>
    obtain rfl := hs hst'
    exact ⟨rfl, .inl ⟨rfl, hd⟩⟩
  | joined s s' hst' ha hb hn hx =>
    obtain rfl := hs hst'
    refine ⟨rfl, .inr ⟨_, _, _, ha, hb, hx, (Task.continues_finished _ _ _).running, ?_⟩⟩
    intro instruction hn'
    obtain rfl := Except.ok.inj (hn.symm.trans hn')
    exact ⟨s, s', rfl⟩
  | broken s hst' ha hb hn hx =>
    obtain rfl := hs hst'
    refine ⟨rfl, .inr ⟨_, _, _, ha, hb, hx, rfl, fun instruction hn' => ?_⟩⟩
    rw [hn] at hn'
    cases hn'
  | closed _ hst' | resumed _ hst' | stuck _ _ hst' | dispatched hst' | requested hst'
  | refused _ hst' | forked hst' | starved _ hst' => rw [hst] at hst'; cases hst'

theorem Acts.joining {a : Action V E} {r : Report V E} (hf : Forest x) (h : Acts values x a r x')
    (hst : (x'.task p).state = .joining j) : (x.task p).state = .joining j ∨
      (x.task p).state = .ready ∧ (x'.task j.left).cancelled = false ∧
      ∃ image node left right, a = .turn image ∧ image.node (x.task p).pc = .ok node ∧
        node.kind = .fork left right j.join ∧ j.node = (x.task p).pc := by
  have hjo : (x'.task p).state.join = some j := by rw [hst]; rfl
  by_cases hfr : (x.task p).state.isFree = true
  · obtain ⟨q, -, -, -, -, hr, -⟩ := (Lineage.acts hf h).born p hfr (Forest.live_of_join hjo)
    rw [hst] at hr
    cases hr
  rw [Bool.not_eq_true] at hfr
  cases h.fate hf hfr with
  | kept c ht => rw [ht] at hst; exact .inl hst
  | gone hp hk hdo ht => rw [ht] at hst; cases hst
  | halted hk ht => subst hk; rw [ht] at hst; cases hst
  | interrupted s hst' hz ht => rw [ht] at hst; cases hst
  | answered hst' h =>
    cases h with
    | stale => exact .inl hst
    | delivered hro hst' hd hrm hx =>
      rw [hx.task_self (lt_length_of_not_free hfr),
        State.join_of_isRunning hd.continues.running] at hjo
      cases hjo
    | refused hro hst' hne he hx =>
      rw [hx.task_self (lt_length_of_not_free hfr), hst'] at hjo
      cases hjo
  | @moved image y z _ t hse hz hm =>
    have hzf := (hf.quota.selects hse).charges hz
    obtain ⟨state, c, ht, -, hs⟩ := picked_task hse p
    rw [← hz.task_eq] at ht
    rcases hm.joins hzf hst with hst' | ⟨hr, hfl, node, left, right, hn, hk, hj⟩
    · rw [ht] at hst'
      rcases hs with rfl | ⟨-, -, -, -, s, rfl⟩
      · exact .inl hst'
      · cases hst'
    · rw [ht] at hr hn hj
      rcases hs with rfl | ⟨-, -, -, -, s, rfl⟩
      · exact .inr ⟨hr, hfl, image, node, left, right, rfl, hn, hk, hj⟩
      · cases hr

theorem Moves.flagged {k i : Nat} (h : Moves image values x i t x')
    (hk : (x.task k).state.isFree = false) (hk' : (x'.task k).state.isFree = false)
    (hfl : (x.task k).cancelled = false) (hfl' : (x'.task k).cancelled = true) :
    ∃ j, (x.task i).state = .joining j ∧ ((x.sweep j).task k).cancelled = true := by
  have hput : ∀ {x' u frames}, Puts x x' i u frames → u.cancelled = (x.task i).cancelled →
      (x'.task k).cancelled = false := fun hx hu => (hx.keeps Task.cancelled hu k).trans hfl
  have hno : (x'.task k).cancelled = false → False := fun h => by rw [hfl'] at h; cases h
  cases h.course with
  | closed s hst hs hl hx => exact (hno (hput hx rfl)).elim
  | goes hi hx ht => exact (hno (hput hx ht.cancelled)).elim
  | @forks node left right v control j x₁ _ hst hn hkd hj hx₁ hx =>
    have hk₁ : (x₁.task k).state.isFree = false := by
      rw [hx₁.keeps (fun u => u.state.isFree) rfl]
      exact hk
    obtain ⟨hl, hr⟩ := hx.ne_of_live hk₁
    refine (hno ?_).elim
    rw [← hput hx₁ rfl]
    by_cases hki : k = i
    · rw [hki, hx.self]
    · rw [hx.other k hki hl hr]
  | sweeps hst => exact ⟨_, hst, hfl'⟩
  | @settles j a b u _ hst ha hb hx ht =>
    refine ⟨j, hst, ?_⟩
    have hne : k ≠ j.left ∧ k ≠ j.right := by
      constructor <;> rintro rfl
      · rw [hx.left_task] at hk'
        cases hk'
      · rw [hx.right_task] at hk'
        cases hk'
    by_cases hki : k = i
    · rw [hki, hx.self, ht.cancelled, ← hki, hfl] at hfl'
      cases hfl'
    · rw [← hx.other k hki hne.1 hne.2]
      exact hfl'

theorem Charges.flag_sweep {i k : Nat} (h : Charges x x' i) (hl : j.left < x.tasks.length)
    (hr : j.right < x.tasks.length) :
    ((x'.sweep j).task k).cancelled = ((x.sweep j).task k).cancelled := by
  have hlen : x'.tasks.length = x.tasks.length := by rw [h.eq]
  have hlinks : ∀ k, x'.links k = x.links k := fun k => by rw [links, links, h.task_eq]
  unfold sweep
  simp only [h.task_eq]
  split
  · rw [task_cancelTree x' (by rw [hlen]; split <;> assumption),
      task_cancelTree x (by split <;> assumption), h.task_eq,
      descends_congr hlinks, hlen]
  · rw [h.task_eq]

theorem Completed.flag_eq {i ticket k : Nat} {event : HostEvent V E} {r : Except Fault Unit}
    (h : Completed image x i ticket event r x') :
    (x'.task k).cancelled = (x.task k).cancelled := by
  cases h with
  | stale => rfl
  | delivered hr hst hd hro hx => exact hx.keeps Task.cancelled hd.continues.cancelled k
  | refused hr hst hne he hx => exact hx.keeps Task.cancelled rfl k

end Execution

open Execution

/-! ## The winner of a race -/

section
variable (values : Values S V E)

def Record.joins (r : Record S V E) (p : Nat) : Bool :=
  match r.report values with
  | .turn t => t.isStep && r.before.exec.quota.stop == some p &&
      (r.before.exec.task p).state.isJoining
  | _ => false

/-- Whether the join of task `p` goes to the left branch: that is decided at the first
join step since the fork, where the left branch goes first. -/
def winner : List (Record S V E) → Nat → Option Bool
  | [], _ => none
  | r :: history, p =>
    match (r.before.exec.task p).state with
    | .joining j => (winner history p).or
        (if r.joins values p then some (r.before.exec.task j.left).state.isDone else none)
    | _ => none

/-- Whether a call flags task `k` although it is not the turn of task `p`: it cancels
the execution, finds the step quota used up, or is the join step of another task. -/
def Record.flags (r : Record S V E) (p k : Nat) : Bool :=
  let x := r.before.exec
  match r.action with
  | .cancel => (x.cancel.task k).cancelled
  | .turn _ =>
    match x.quota.stop with
    | none => (x.quota.task k).cancelled
    | some q => q != p &&
      match (x.task q).state with
      | .joining j => ((x.quota.sweep j).task k).cancelled
      | _ => (x.quota.task k).cancelled
  | .complete .. => false

/-- Whether a call leaves the flag of the left branch to the race of task `p`. -/
def Record.spares (r : Record S V E) (p : Nat) : Bool :=
  match (r.before.exec.task p).state with
  | .joining j => j.join != .race || (r.before.exec.task j.left).cancelled || !r.flags p j.left
  | _ => true

/-- As long as the execution runs, the flag of the left branch tells the winner of the
race of task `p`. -/
structure Fair (history : List (Record S V E)) (x : Execution V E) (p : Nat) : Prop where
  flag : ∀ j, (x.task 0).state.terminalResult = none → (x.task p).state = .joining j →
    j.join = .race → ((x.task j.left).cancelled = true ↔ winner values history p = some false)
  done : ∀ j, (x.task 0).state.terminalResult = none → (x.task p).state = .joining j →
    j.join = .race → winner values history p = some true → (x.task j.left).state.isDone = true

end

variable {values : Values S V E} {x₀ x : Execution V E} {history : List (Record S V E)}
  {r : Record S V E} {p : Nat} {j : JoinState} {image : ProgramImage V E}

theorem winner_cons_none
    (hst : (r.before.exec.task p).state = .ready) : winner values (r :: history) p = none := by
  rw [winner, hst]

section

variable (hst : (r.before.exec.task p).state = .joining j)
include hst

theorem winner_cons : winner values (r :: history) p =
      (winner values history p).or
        (if r.joins values p then some (r.before.exec.task j.left).state.isDone else none) := by
  rw [winner, hst]

variable (hf : r.before.exec.Forest)
include hf

theorem Record.step_of_joins (hj : r.joins values p = true) :
    ∃ image t z, r.action = .turn image ∧
      (r.before.exec.task 0).state.terminalResult = none ∧ Charges r.before.exec.quota z p ∧
      z.ready p = true ∧ Moves image values z p t (r.after values).exec := by
  have ha := r.acts values hf
  unfold Record.joins at hj
  generalize r.action = a at ha
  generalize r.report values = report at ha hj
  generalize (r.after values).exec = x' at ha
  cases ha with
  | complete | cancel => cases hj
  | @turn image t _ h =>
    simp only [Bool.and_eq_true, beq_iff_eq] at hj
    obtain ⟨y, z, hroot, hs, hz, hm⟩ := h.actor hj.1.1 hj.1.2
    obtain ⟨rfl, hr⟩ := hs.of_joining (by rw [state_quota]; exact hst)
    refine ⟨image, t, z, rfl, hroot, hz, ?_, hm⟩
    rw [hz.eq]
    exact hr

theorem Fair.swept (h : Fair values history r.before.exec p) (hj : r.joins values p = true)
    (hst' : ((r.after values).exec.task p).state = .joining j) (hra : j.join = .race) :
    (((r.after values).exec.task j.left).cancelled = true ↔ (winner values history p).or
      (some (r.before.exec.task j.left).state.isDone) = some false) ∧
    ((winner values history p).or (some (r.before.exec.task j.left).state.isDone) = some true →
      ((r.after values).exec.task j.left).state.isDone = true) := by
  obtain ⟨image, t, z, -, hroot, hz, hre, hm⟩ := Record.step_of_joins hst hf hj
  have hzf := hf.quota.charges hz
  have hs : ∀ k, (z.task k).state = (r.before.exec.task k).state := fun k => by
    rw [hz.task_eq, state_quota]
  have hzj : (z.task p).state = .joining j := by rw [hs, hst]
  obtain ⟨-, hc⟩ := hzf.joined p j (by rw [hzj]; rfl)
  have hlt := lt_length_of_not_free (hc j.left (.inl rfl)).1
  have hrt := lt_length_of_not_free (hc j.right (.inr rfl)).1
  rcases (hm.of_joining hzj).2 with ⟨heq, hn⟩ | ⟨a, b, u, -, -, hx, hru, -⟩
  · rw [heq, task_sweep hlt hrt]
    rw [hs]
    by_cases hl : (r.before.exec.task j.left).state.isDone = true
    · -- The left branch keeps its flag, and the race goes to it unless that is decided.
      rw [hzf.sweep_left (by rw [hzj]; rfl) (by rw [hs, hl]), hz.task_eq, flag_quota hl,
        h.flag j hroot hst hra, hl]
      cases winner values history p <;> simp
    · -- The right branch alone is done, so the race is not decided for the left one.
      rw [Bool.not_eq_true] at hl
      have hr : (z.task j.right).state.isDone = true := by
        unfold Execution.ready at hre
        rw [hzj] at hre
        dsimp only at hre
        rw [hs j.left, hl] at hre
        simp only [Bool.false_and, Bool.false_or, Bool.and_eq_true] at hre
        exact hre.2.1
      have hw : winner values history p ≠ some true := fun hw => by
        rw [h.done j hroot hst hra hw] at hl
        cases hl
      rw [sweep_right hlt hra (by rw [hs, hl]) hr, hl]
      rcases hwi : winner values history p with _ | _ | _
      · simp
      · simp
      · exact absurd hwi hw
  · rw [hx.self] at hst'
    rw [hst'] at hru
    cases hru

theorem Record.joins_of_resume
    (hr : ((r.after values).exec.task p).state.join = none) : r.joins values p = true := by
  have ha := r.acts values hf
  have hl : (r.before.exec.task p).state.isFree = false := by rw [hst]; rfl
  unfold Record.joins
  rw [hst]
  generalize r.report values = report at ha
  generalize r.action = a at ha
  cases ha.fate hf hl with
  | kept c ht => rw [ht, hst] at hr; cases hr
  | gone hp hk hd => rw [hst] at hd; cases hd
  | halted hk ht => subst hk; rw [ht, hst] at hr; cases hr
  | interrupted s hst' => rcases hst' with h | ⟨v, h⟩ <;> rw [hst] at h <;> cases h
  | answered hst' => rw [hst] at hst'; cases hst'
  | @moved image y z _ t hse hz hm hs =>
    obtain ⟨rfl, -⟩ := hse.of_joining (by rw [state_quota]; exact hst)
    have hzj : (z.task p).state = .joining j := by rw [hz.task_eq, state_quota, hst]
    show (t.isStep && r.before.exec.quota.stop == some p && true) = true
    rw [(hm.of_joining hzj).1, hs]
    simp

end

theorem Record.flags_of_quota {k : Nat} (hf : r.before.exec.Forest) (ha : r.action = .turn image)
    (hp : r.before.exec.quota.stop ≠ some p) (hq : (r.before.exec.quota.task k).cancelled = true) :
    r.flags p k = true := by
  unfold Record.flags
  simp only [ha]
  split
  · exact hq
  · next q hstop =>
    have hqp : q ≠ p := by
      rintro rfl
      exact hp hstop
    rw [bne_iff_ne.mpr hqp, Bool.true_and]
    split
    · next j hst =>
      obtain ⟨c, ht, hc⟩ := hf.quota.swept (i := q) (j := j) (by rw [state_quota, hst]; rfl) k
      rw [ht]
      exact hc hq
    · exact hq

/-- A turn of another task flags nothing but by the join step of its race. -/
theorem Record.flags_of_moved {i k : Nat} {y z : Execution V E} (hf : r.before.exec.Forest)
    (ha : r.action = .turn image) (hs : r.before.exec.quota.stop = some i) (hip : i ≠ p)
    (hse : Selects values r.before.exec.quota i y) (hz : Charges y z i)
    (hm : Moves image values z i t x') (hl : (r.before.exec.task k).state.isFree = false)
    (hl' : (x'.task k).state.isFree = false)
    (hq : (r.before.exec.quota.task k).cancelled = false) (hfl : (x'.task k).cancelled = true) :
    r.flags p k = true := by
  obtain ⟨state, ht, -⟩ := hse.task_eq k
  obtain ⟨state', c, hpt, -, hstate⟩ := picked_task hse k
  have hlz : (z.task k).state.isFree = false := by
    rw [hz.task_eq, hpt]
    rcases hstate with rfl | ⟨-, -, -, -, s, rfl⟩
    · exact hl
    · rfl
  obtain ⟨j, hj, hsw⟩ := hm.flagged hlz hl' (by rw [hz.task_eq, ht]; exact hq) hfl
  rw [hz.task_eq] at hj
  have hjq : (r.before.exec.quota.task i).state = .joining j := by
    obtain ⟨state, ht, hstate⟩ := hse.task_eq i
    rw [ht] at hj
    rcases hstate with rfl | ⟨-, -, -, -, s, rfl⟩
    · exact hj
    · cases hj
  obtain ⟨rfl, -⟩ := hse.of_joining hjq
  obtain ⟨-, hc⟩ := hf.quota.joined i j (by rw [hjq]; rfl)
  rw [state_quota] at hjq
  unfold Record.flags
  simp only [ha, hs, hjq]
  rw [bne_iff_ne.mpr hip, Bool.true_and, ← hz.flag_sweep (lt_length_of_not_free (hc _ (.inl rfl)).1)
    (lt_length_of_not_free (hc _ (.inr rfl)).1)]
  exact hsw

/-- What flags the left branch of a race is its own join step, or one of the calls that
`Record.flags` names, unless it ends the execution. -/
theorem Record.joins_or_flags (hf : r.before.exec.Forest)
    (hst : (r.before.exec.task p).state = .joining j)
    (hroot : ((r.after values).exec.task 0).state.terminalResult = none)
    (hl' : ((r.after values).exec.task j.left).state.isFree = false)
    (hfl : (r.before.exec.task j.left).cancelled = false)
    (hfl' : ((r.after values).exec.task j.left).cancelled = true) :
    r.joins values p = true ∨ r.flags p j.left = true := by
  obtain ⟨hl, -⟩ := (hf.joined p j (by rw [hst]; rfl)).2 j.left (.inl rfl)
  have hacts := r.acts values hf
  unfold Record.joins
  generalize hrep : r.report values = report at hacts
  generalize hact : r.action = a at hacts
  generalize (r.after values).exec = x' at hacts hroot hl' hfl'
  cases hacts with
  | cancel =>
    unfold Record.flags
    simp only [hact]
    exact .inr hfl'
  | complete h =>
    rw [h.flag_eq, hfl] at hfl'
    cases hfl'
  | @turn image t _ h =>
    cases h with
    | done => rw [hfl] at hfl'; cases hfl'
    | waiting hr hp =>
      refine .inr (Record.flags_of_quota hf hact (fun hs => ?_) hfl')
      have hno := find?_some hs
      rw [hp p (lt_length_of_not_free (by rw [hst]; rfl))] at hno
      cases hno
    | cancel hr hw hc hz hs =>
      refine .inr (Record.flags_of_quota hf hact (fun hs' => ?_) hfl')
      obtain rfl := Option.some.inj (hs.symm.trans hs')
      rw [state_quota, hst] at hw
      cases hw
    | @halted i y _ result hr hse hx =>
      have h0 : 0 < y.tasks.length := (hf.quota.selects hse).lt_length_root
      rw [hx.task_self h0] at hroot
      cases hroot
    | @moved i y z _ _ hr hse hz hm hs =>
      by_cases hip : i = p
      · subst hip
        obtain ⟨rfl, -⟩ := hse.of_joining (by rw [state_quota]; exact hst)
        have hzj : (z.task i).state = .joining j := by rw [hz.task_eq, state_quota, hst]
        refine .inl ?_
        show (t.isStep && r.before.exec.quota.stop == some i && _) = true
        rw [(hm.of_joining hzj).1, hs, hst]
        simp [State.isJoining]
      · have hsp : r.before.exec.quota.stop ≠ some p := fun hs' =>
          hip (Option.some.inj (hs.symm.trans hs'))
        by_cases hq : (r.before.exec.quota.task j.left).cancelled = true
        · exact .inr (Record.flags_of_quota hf hact hsp hq)
        · rw [Bool.not_eq_true] at hq
          exact .inr (Record.flags_of_moved hf hact hs hip hse hz hm hl hl' hq hfl')

theorem Fair.cons (h : Fair values history r.before.exec p)
    (hf : r.before.exec.Forest) (hsp : r.spares p = true) :
    Fair values (r :: history) (r.after values).exec p := by
  have ha := r.acts values hf
  have hf' := hf.acts ha
  have hs : ∀ j, ((r.after values).exec.task 0).state.terminalResult = none →
      ((r.after values).exec.task p).state = .joining j → j.join = .race →
      (((r.after values).exec.task j.left).cancelled = true ↔
        winner values (r :: history) p = some false) ∧
      (winner values (r :: history) p = some true →
        ((r.after values).exec.task j.left).state.isDone = true) := by
    intro j hroot' hst' hr
    have hroot : (r.before.exec.task 0).state.terminalResult = none := by
      cases ho : (r.before.exec.task 0).state.terminalResult with
      | none => rfl
      | some o =>
        rw [ha.terminal_stays hf ho hf'.root_live, ho] at hroot'
        cases hroot'
    rcases ha.joining hf hst' with hst | ⟨hre, hfl, -⟩
    · rw [winner_cons hst]
      by_cases hj : r.joins values p = true
      · rw [if_pos hj]
        exact h.swept hst hf hj hst' hr
      · obtain ⟨hl, -⟩ := (hf.joined p j (by rw [hst]; rfl)).2 j.left (.inl rfl)
        obtain ⟨hl', -⟩ := (hf'.joined p j (by rw [hst']; rfl)).2 j.left (.inl rfl)
        rw [if_neg hj, Option.or_none, ← h.flag j hroot hst hr]
        refine ⟨⟨fun hfl' => ?_, (Lineage.acts hf ha).flag _ hl hl'⟩, fun hw => ?_⟩
        · by_contra hfl
          rw [Bool.not_eq_true] at hfl
          rcases Record.joins_or_flags hf hst hroot' hl' hfl hfl' with hj' | hflags
          · exact hj hj'
          · rw [Record.spares, hst] at hsp
            simp [hr, hfl, hflags] at hsp
        · have hd := h.done j hroot hst hr hw
          obtain ⟨o, ho⟩ := State.done_of_isDone hd
          rw [ha.terminal_stays hf (by rw [ho]; rfl) hl']
          exact hd
    · rw [winner_cons_none hre, hfl]
      simp
  exact ⟨fun j h0 hst hr => (hs j h0 hst hr).1, fun j h0 hst hr => (hs j h0 hst hr).2⟩

theorem Run.fair (h : Run values x₀ history x) (h₀ : Started image x₀)
    (hs : ∀ r ∈ history, r.spares p = true) : Fair values history x p := by
  induction h with
  | nil =>
    have hn : ∀ j, (x₀.task p).state ≠ .joining j := by
      obtain ⟨tasks, frames, bindings, limits, input, context, hne⟩ := h₀
      intro j hst
      rw [task_new hne] at hst
      split at hst <;> cases hst
    exact ⟨fun j _ hst => absurd hst (hn j), fun j _ hst => absurd hst (hn j)⟩
  | cons r hr he hok ih =>
    subst he
    exact (ih fun r' hr' => hs r' (mem_cons_of_mem _ hr')).cons
      (hr.forest (.started h₀)) (hs r mem_cons_self)

theorem Run.joinable (h : Run values x₀ history x)
    (h₀ : Started image x₀) (hus : ∀ r ∈ history, r.action.Uses image)
    (hst : (x.task p).state = .joining j) : ∃ instruction, image.node j.node = .ok instruction := by
  induction h with
  | nil =>
    obtain ⟨tasks, frames, bindings, limits, input, context, hne⟩ := h₀
    rw [task_new hne] at hst
    split at hst <;> cases hst
  | cons r hr he hok ih =>
    subst he
    have hf := hr.forest (.started h₀)
    rcases (r.acts values hf).joining hf hst with hst |
      ⟨-, -, used, node, left, right, ha, hn, -, hj⟩
    · exact ih (fun r' hr' => hus r' (mem_cons_of_mem _ hr')) hst
    · have hu := hus r mem_cons_self
      rw [ha] at hu
      obtain rfl : used = image := hu
      exact ⟨node, by rw [hj, hn]⟩

/-- In every run with one image in which nothing but the race itself flags its left
branch: it resumes its task with the outcome of the branch that its first join step finds
done, the left one if both are, and adds only the control of the branches. -/
theorem race_returns_first_finisher {image : ProgramImage V E} {r : Record S V E}
    (h₀ : Started image x₀) (h : Run values x₀ (r :: history) x)
    (huse : ∀ r' ∈ r :: history, r'.action.Uses image)
    {p : Nat} (hspare : ∀ r' ∈ r :: history, r'.spares p = true) {j : JoinState}
    (hst : (r.before.exec.task p).state = .joining j) (hrace : j.join = .race)
    (hresume : (x.task p).state.join = none) :
    ∃ left a b instruction s s' cancelled, winner values (r :: history) p = some left ∧
      (r.before.exec.task j.left).state = .done a ∧ (r.before.exec.task j.right).state = .done b ∧
      image.node j.node = .ok instruction ∧
      x.task p = { r.before.exec.task p with cancelled }.finished instruction.next
        (values.coloredResult (values.contended (if left then a else b) a b s).1
          (r.before.exec.task p).input s').1 := by
  cases h with
  | cons _ hrun hexec hok =>
  subst hexec
  have hf := hrun.forest (.started h₀)
  have hfair := hrun.fair h₀ fun r' hr' => hspare r' (mem_cons_of_mem _ hr')
  obtain ⟨instruction, hn⟩ := hrun.joinable h₀ (fun r' hr' => huse r' (mem_cons_of_mem _ hr')) hst
  have hused := huse r mem_cons_self
  have hjoins := Record.joins_of_resume hst hf hresume
  obtain ⟨used, t, z, ha, hroot, hz, -, hm⟩ := Record.step_of_joins hst hf hjoins
  rw [ha] at hused
  obtain rfl : used = image := hused
  obtain ⟨cancelled, hflag, -⟩ := r.before.exec.task_quota p
  rw [← hz.task_eq] at hflag
  have hzj : (z.task p).state = .joining j := by rw [hflag, hst]
  have hzf := hf.quota.charges hz
  have hstate : ∀ k, (z.task k).state = (r.before.exec.task k).state := fun k => by
    rw [hz.task_eq, state_quota]
  rcases (hm.of_joining hzj).2 with ⟨heq, -⟩ | ⟨a, b, u, hda, hdb, hx, -, hu⟩
  · rw [heq, hzf.task_sweep_self (by rw [hzj]; rfl), hzj] at hresume
    cases hresume
  obtain ⟨s, s', rfl⟩ := hu instruction hn
  rw [hstate] at hda hdb
  have hdone : (r.before.exec.task j.left).state.isDone = true := by rw [hda]; rfl
  have hleft : ((z.sweep j).task j.left).cancelled = (r.before.exec.task j.left).cancelled := by
    rw [hzf.sweep_left (by rw [hzj]; rfl) (by rw [hstate, hdone]), hz.task_eq, flag_quota hdone]
  have hself := hx.self
  rw [hrace, hleft, hflag] at hself
  have hwin : winner values (r :: history) p = some !(r.before.exec.task j.left).cancelled := by
    have hiff := hfair.flag j hroot hst hrace
    rw [winner_cons hst, if_pos hjoins, hdone]
    rcases hw : winner values history p with _ | _ | _ <;> rw [hw] at hiff <;> simp at hiff <;>
      simp [hiff]
  refine ⟨_, a, b, instruction, s, s', cancelled, hwin, hda, hdb, hn, ?_⟩
  rw [hself]
  cases (r.before.exec.task j.left).cancelled <;> rfl

def twoRequests : ProgramImage Int Fault where
  nodes := [{ kind := .fork 1 2 .race }, { kind := .request 0 }, { kind := .request 1 }]
  imports := 2

def rightFirst : List (Call Int Fault) :=
  List.replicate 3 .turn ++ [.complete 2 2 (.complete (.ok 6)), .turn, .turn,
    .complete 1 1 (.complete (.ok 5)), .turn, .turn]

theorem race_returns_first_finisher_right : ∃ (x₀ x : Execution Int Fault) (r : _) (history : _),
    Started twoRequests x₀ ∧ Run numbers x₀ (r :: history) x ∧
    winner numbers (r :: history) 0 = some false ∧ ∃ a b s s' cancelled,
      x.task 0 = { r.before.exec.task 0 with cancelled }.finished none
        (numbers.coloredResult (numbers.contended b a b s).1
          (r.before.exec.task 0).input s').1 := by
  obtain ⟨x₀, history, m, h₀, h, huse, hm⟩ := run_of_trial twoRequests 3 4 rightFirst
    (fun history m => match history with
      | [] => false
      | r :: history => winner numbers (r :: history) 0 == some false &&
          (match (r.before.exec.task 0).state with
            | .joining j => j.join == .race && j.node == 0
            | _ => false) &&
          (r :: history).all (·.spares 0) &&
          (m.exec.task 0).state.join.isNone) (by decide +kernel)
  cases history with
  | nil => cases hm
  | cons r history =>
    simp only [Bool.and_eq_true, beq_iff_eq, all_eq_true, Option.isNone_iff_eq_none] at hm
    obtain ⟨⟨⟨hwin, hjoin⟩, hspare⟩, hresume⟩ := hm
    split at hjoin
    · next j hst =>
      simp only [Bool.and_eq_true, beq_iff_eq] at hjoin
      obtain ⟨left, a, b, instruction, s, s', c, hwin', -, -, hn, htask⟩ :=
        race_returns_first_finisher h₀ h huse hspare hst hjoin.1 hresume
      obtain rfl := Option.some.inj (hwin.symm.trans hwin')
      rw [hjoin.2] at hn
      obtain rfl := Except.ok.inj hn
      exact ⟨x₀, m.exec, r, history, h₀, h, hwin, a, b, s, s', c, htask⟩
    · cases hjoin

def raceInCleanup : ProgramImage Int Fault where
  nodes := [{ kind := .finally_ 1 2 }, { kind := .input }, { kind := .fork 3 4 .race },
    { kind := .request 0 }, { kind := .request 1 }]
  imports := 2

/-- The execution is cancelled while both branches wait; the left one is done first. -/
def cancelledRace : List (Call Int Fault) :=
  List.replicate 6 .turn ++ [.cancel, .complete 1 1 (.complete (.ok 5)), .turn,
    .complete 2 2 (.complete (.ok 6)), .turn, .turn]

/-- A cancelled race returns its right branch, although the left one was done first. -/
theorem cancelledRace_returns_right : ∃ (x₀ x : Execution Int Fault) (r : _) (history : _) (j : _),
    Started raceInCleanup x₀ ∧ Run numbers x₀ (r :: history) x ∧
    (∀ r' ∈ r :: history, r'.action.Uses raceInCleanup) ∧
    (r.before.exec.task 0).state = .joining j ∧ j.join = .race ∧
    (r.before.exec.task j.left).state.terminalResult = some (.ok 5) ∧
    (r.before.exec.task j.right).state.terminalResult = some (.ok 6) ∧
    (∃ r' ∈ history, (r'.before.exec.task j.left).state.isDone = true ∧
      (r'.before.exec.task j.right).state.isWaiting = true) ∧
    winner numbers (r :: history) 0 = some true ∧ (x.task 0).state = .returning (.ok 6) := by
  let j : JoinState := { left := 1, right := 2, join := .race, node := 2 }
  obtain ⟨x₀, history, m, h₀, h, huse, hm⟩ := run_of_trial raceInCleanup 3 4 cancelledRace
    (fun history m => match history with
      | [] => false
      | r :: history => decide ((r.before.exec.task 0).state = .joining j ∧
          (r.before.exec.task j.left).state.terminalResult = some (.ok 5) ∧
          (r.before.exec.task j.right).state.terminalResult = some (.ok 6) ∧
          (∃ r' ∈ history, (r'.before.exec.task j.left).state.isDone = true ∧
            (r'.before.exec.task j.right).state.isWaiting = true) ∧
          winner numbers (r :: history) 0 = some true ∧
          (m.exec.task 0).state = .returning (.ok 6))) (by decide +kernel)
  cases history with
  | nil => cases hm
  | cons r history =>
    obtain ⟨hst, hleft, hright, hfirst, hwin, hout⟩ := of_decide_eq_true hm
    exact ⟨x₀, m.exec, r, history, j, h₀, h, huse, hst, rfl, hleft, hright, hfirst, hwin, hout⟩

end Xolotl.Core
