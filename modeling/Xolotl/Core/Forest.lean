import Xolotl.Core.Slots

/-! The tasks of a machine form a tree below the root: every live task other than
the root is a child of the task that joins it. One turn of the machine is
described here by what it does to this tree. -/

namespace Xolotl.Core

open Function

variable {S V E : Type}

namespace Values

def settled (values : Values S V E) (join : Join) (leftCancelled : Bool) (a b : Except E V) :
    StateM S (Except E V) := do
  let leftControl ← values.retainResult a
  let rightControl ← values.retainResult b
  let control ← values.influence leftControl rightControl
  let result ← Machine.joinResult values join leftCancelled a b
  values.influenceResult result control

end Values

namespace Execution

/-- The tree of tasks, with the frames and inputs that live tasks own. -/
structure Forest (x : Execution V E) : Prop where
  root_live : (x.task 0).state.isFree = false
  root_parent : x.links 0 = none
  fresh : ∀ i, (x.task i).state.isFree = true → x.task i = {} ∧ x.stack i = []
  input : ∀ i, (x.task i).state.isFree = false → ∃ v, (x.task i).input = some v
  child : ∀ i, i ≠ 0 → (x.task i).state.isFree = false →
    ∃ p j, x.links i = some p ∧ (x.task p).state.join = some j ∧ (i = j.left ∨ i = j.right)
  joined : ∀ p j, (x.task p).state.join = some j → j.left ≠ j.right ∧
    ∀ c, c = j.left ∨ c = j.right → (x.task c).state.isFree = false ∧ x.links c = some p
  halted : ∀ i outcome j, (x.task i).state = .halted outcome j → i = 0
  closed : ∀ i outcome, (x.task i).state = .done outcome → x.stack i = []
  depth : ∀ i, (x.stack i).length ≤ x.limits.framesPerTask
  ends : ∀ i, Walk.Ends x.links i

variable (image : ProgramImage V E) (values : Values S V E) (x : Execution V E) (i : Nat) in
inductive Moves : Machine.Turn V E → Execution V E → Prop
  | closed {outcome outcome' : Except E V} {control : V} {x' : Execution V E} (s : S)
      (hst : (x.task i).state = .returning outcome) (hs : x.stack i = [])
      (hl : (values.landed outcome (x.task i).input s).1 = (outcome', control))
      (hx : Puts x x' i { x.task i with state := .done outcome', input := some control } []) :
      Moves .moved x'
  | resumed {outcome outcome' : Except E V} {control : V} {frame : FrameKind V E}
      {rest pushed : List (FrameKind V E)} {t : Task V E} {x' : Execution V E} (s : S)
      (hst : (x.task i).state = .returning outcome) (hs : x.stack i = frame :: rest)
      (hl : (values.landed outcome (x.task i).input s).1 = (outcome', control))
      (hr : Resumes image values { x.task i with state := .ready, input := some control } outcome'
        frame t pushed)
      (hx : Puts x x' i t (pushed ++ rest)) : Moves .moved x'
  | stuck {outcome outcome' : Except E V} {control : V} {frame : FrameKind V E}
      {rest : List (FrameKind V E)} {e : Fault} {x' : Execution V E} (s s' : S)
      (hst : (x.task i).state = .returning outcome) (hs : x.stack i = frame :: rest)
      (hl : (values.landed outcome (x.task i).input s).1 = (outcome', control))
      (hne : e ≠ .tasks) (hcl : ∀ o, frame ≠ .cleaned o)
      (he : e = .frames ∨ (∃ cleanup input, frame = .finally_ cleanup input) →
        x.room i < rest.length + 1)
      (hx : Puts x x' i ({ x.task i with input := some control }.returned
        (values.faulted e { x.task i with state := .ready, input := some control } s').1) rest) :
      Moves (.faulted e) x'
  | dispatched {node : Node V E} {v input : V} {t : Task V E} {pushed : List (FrameKind V E)}
      {x' : Execution V E} (hst : (x.task i).state = .ready) (hv : (x.task i).input = some v)
      (hn : image.node (x.task i).pc = .ok node)
      (hd : Dispatches image { x.task i with input := some input } node i v .idle t pushed)
      (hroom : (pushed ++ x.stack i).length ≤ max (x.stack i).length (x.room i))
      (hx : Puts x x' i t (pushed ++ x.stack i)) : Moves .moved x'
  | requested {node : Node V E} {v input : V} {t : Task V E} {pushed : List (FrameKind V E)}
      {r : Request V} {x' : Execution V E} (hst : (x.task i).state = .ready)
      (hv : (x.task i).input = some v) (hn : image.node (x.task i).pc = .ok node)
      (hd : Dispatches image { x.task i with input := some input } node i v (.request r) t pushed)
      (hx : Puts x x' i t (pushed ++ x.stack i)) (hfresh : r.ticket = x.ticket + 1)
      (hticket : x'.ticket = r.ticket) : Moves (.request r) x'
  | refused {v input : V} {pushed : List (FrameKind V E)} {e : Fault} {x' : Execution V E} (s : S)
      (hst : (x.task i).state = .ready)
      (hp : pushed = [] ∨ pushed = [.finish (x.task i).pc])
      (hroom : (pushed ++ x.stack i).length ≤ max (x.stack i).length (x.room i))
      (he : e = .frames → ∃ node frames entry, image.node (x.task i).pc = .ok node ∧
        Enters (x.task i).pc v node.kind frames entry ∧
        x.room i < (x.stack i).length + frames.length)
      (hne : e ≠ .tasks)
      (hx : Puts x x' i ({ x.task i with input := some input }.returned
        (values.faulted e { x.task i with input := some input } s).1) (pushed ++ x.stack i)) :
      Moves (.faulted e) x'
  | forked {node : Node V E} {left right : Nat} {v control : V} {j : JoinState}
      {x₁ x' : Execution V E} (hst : (x.task i).state = .ready) (hv : (x.task i).input = some v)
      (hn : image.node (x.task i).pc = .ok node) (hk : node.kind = .fork left right j.join)
      (hj : j.node = (x.task i).pc)
      (hx₁ : Puts x x₁ i { x.task i with input := some control } (x.stack i))
      (hx : Forks x₁ x' i j left right v) : Moves .moved x'
  | starved {node : Node V E} {left right : Nat} {join : Join} {control : V} {x' : Execution V E}
      (s : S) (hst : (x.task i).state = .ready) (hn : image.node (x.task i).pc = .ok node)
      (hk : node.kind = .fork left right join) (hfree : x.freeSlots.length < 2)
      (hx : Puts x x' i ({ x.task i with input := some control }.returned
        (values.faulted .tasks { x.task i with input := some control } s).1) (x.stack i)) :
      Moves (.faulted .tasks) x'
  | swept {j : JoinState} (hst : (x.task i).state = .joining j)
      (hdone : ((x.task j.left).state.isDone && (x.task j.right).state.isDone) = false) :
      Moves .moved (x.sweep j)
  | joined {j : JoinState} {a b : Except E V} {instruction : Node V E} {x' : Execution V E}
      (s s' : S) (hst : (x.task i).state = .joining j) (ha : (x.task j.left).state = .done a)
      (hb : (x.task j.right).state = .done b) (hn : image.node j.node = .ok instruction)
      (hx : Joins (x.sweep j) x' i j ((x.task i).finished instruction.next
        (values.coloredResult
          (values.settled j.join ((x.sweep j).task j.left).cancelled a b s).1
          (x.task i).input s').1)) : Moves .moved x'
  | broken {j : JoinState} {a b : Except E V} {e : Fault} {x' : Execution V E} (s : S)
      (hst : (x.task i).state = .joining j) (ha : (x.task j.left).state = .done a)
      (hb : (x.task j.right).state = .done b) (hn : image.node j.node = .error e)
      (hx : Joins (x.sweep j) x' i j ((x.task i).returned
        (values.faulted e (x.task i) s).1)) : Moves (.faulted e) x'

namespace Forest

variable {x : Execution V E} {i p c : Nat} {j : JoinState} {x' : Execution V E} {t : Task V E}

theorem live_of_join (hj : (x.task p).state.join = some j) : (x.task p).state.isFree = false := by
  cases hst : (x.task p).state <;> rw [hst] at hj <;> first | rfl | cases hj

section

variable (h : Forest x)
include h

section

variable (hc : x.links c = some p)
include hc

theorem live_of_link : (x.task c).state.isFree = false := by
  by_contra hf
  rw [Bool.not_eq_false] at hf
  rw [links, (h.fresh c hf).1] at hc
  cases hc

theorem parent_join : ∃ j, (x.task p).state.join = some j ∧ (c = j.left ∨ c = j.right) := by
  have hne : c ≠ 0 := by
    rintro rfl
    rw [h.root_parent] at hc
    cases hc
  obtain ⟨q, j, hq, hj, hcj⟩ := h.child c hne (h.live_of_link hc)
  cases hq.symm.trans hc
  exact ⟨j, hj, hcj⟩

theorem link_ne (hi : (x.task i).state.join = none) : p ≠ i := by
  rintro rfl
  obtain ⟨j, hj, -⟩ := h.parent_join hc
  rw [hi] at hj
  cases hj

theorem lt_length : p < x.tasks.length := by
  obtain ⟨j, hj, -⟩ := h.parent_join hc
  exact lt_length_of_not_free (live_of_join hj)

theorem child_ne : p ≠ c := ((h.ends c).ne_of_step hc).symm

omit hc in
theorem descends_iff (root i : Nat) :
    x.descends root x.tasks.length (x.task i).parent = true ↔ x.Below root i :=
  Execution.descends_iff h.ends (fun _ _ hp => h.lt_length hp) root i

theorem not_below : ¬ x.Below c p := by
  rintro ⟨q, hq, hv⟩
  exact (h.ends c).not_visits hc ((Walk.visits_of_step hq).trans hv)

end

theorem task_sweep_self (hj : (x.task i).state.join = some j) : (x.sweep j).task i = x.task i := by
  obtain ⟨-, hch⟩ := h.joined i j hj
  have hk : ∀ c, c = j.left ∨ c = j.right → (x.cancelTree c).task i = x.task i := by
    intro c hc
    obtain ⟨hl, hp⟩ := hch c hc
    have hb : x.descends c x.tasks.length (x.task i).parent = false := by
      rw [← Bool.not_eq_true, h.descends_iff]
      exact h.not_below hp
    rw [task_cancelTree x (lt_length_of_not_free hl), hb]
    simp [h.child_ne hp]
  unfold sweep
  dsimp only
  split
  · exact hk _ (by split; exacts [.inr rfl, .inl rfl])
  · rfl

theorem visits_root {k : Nat} (hk : (x.task k).state.isFree = false) : Walk.Visits x.links k 0 := by
  obtain ⟨n, hn⟩ := h.ends k
  induction n generalizing k with
  | zero => cases hn
  | succ n ih =>
    by_cases h0 : k = 0
    · exact h0 ▸ Walk.visits_refl
    · obtain ⟨p, j, hp, hj, -⟩ := h.child k h0 hk
      rw [Walk.walk_succ_eq, hp] at hn
      exact (Walk.visits_of_step hp).trans (ih (live_of_join hj) hn)

theorem alone (h0 : (x.task 0).state.join = none) {k : Nat} (hk : k ≠ 0) :
    (x.task k).state.isFree = true := by
  by_contra hl
  rw [Bool.not_eq_true] at hl
  rcases (h.visits_root hl).eq_or_step with heq | ⟨c, hc⟩
  · exact hk heq
  · obtain ⟨j, hj, -⟩ := h.parent_join hc
    rw [h0] at hj
    cases hj

theorem le_room (i : Nat) : (x.stack i).length ≤ x.room i := by
  have hl := x.frames.live_le
  refine Nat.le_min.mpr ⟨h.depth i, ?_⟩
  show (x.stack i).length ≤ x.frames.capacity + (x.stack i).length - x.frames.live
  omega

/-! ## What keeps the tree -/

theorem lt_length_root : 0 < x.tasks.length := lt_length_of_not_free h.root_live

end

structure Sits (limit i : Nat) (t : Task V E) (frames : List (FrameKind V E)) : Prop where
  fresh : t.state.isFree = true → t = {} ∧ frames = []
  input : t.state.isFree = false → ∃ v, t.input = some v
  halted : ∀ outcome j, t.state = .halted outcome j → i = 0
  closed : ∀ outcome, t.state = .done outcome → frames = []
  depth : frames.length ≤ limit

theorem Sits.free (limit k : Nat) : Sits limit k ({} : Task V E) [] :=
  ⟨fun _ => ⟨rfl, rfl⟩, nofun, nofun, nofun, Nat.zero_le _⟩

theorem Sits.of_open {limit : Nat} {t : Task V E} {frames : List (FrameKind V E)}
    (hf : t.state.isFree = false) (ht : t.state.terminalResult = none)
    (hi : ∃ v, t.input = some v) (hd : frames.length ≤ limit) : Sits limit i t frames where
  fresh h := absurd (hf.symm.trans h) Bool.false_ne_true
  input _ := hi
  halted _ _ h := by
    rw [h] at ht
    cases ht
  closed _ h := by
    rw [h] at ht
    cases ht
  depth := hd

theorem sits (h : Forest x) (i : Nat) : Sits x.limits.framesPerTask i (x.task i) (x.stack i) :=
  ⟨h.fresh i, h.input i, h.halted i, h.closed i, h.depth i⟩

theorem steady (h : Forest x) (hs : ∀ k, Sits x'.limits.framesPerTask k (x'.task k) (x'.stack k))
    (hl : x'.links = x.links) (hf : ∀ k, (x'.task k).state.isFree = (x.task k).state.isFree)
    (hjo : ∀ k, (x'.task k).state.join = (x.task k).state.join) : Forest x' := by
  refine ⟨?_, ?_, fun k => (hs k).fresh, fun k => (hs k).input, ?_, ?_,
    fun k => (hs k).halted, fun k => (hs k).closed, fun k => (hs k).depth, ?_⟩
  · rw [hf]
    exact h.root_live
  · rw [hl]
    exact h.root_parent
  · intro k h0 hk
    rw [hf] at hk
    obtain ⟨p, j, hp, hj, hkj⟩ := h.child k h0 hk
    exact ⟨p, j, by rw [hl, hp], by rw [hjo, hj], hkj⟩
  · intro p j hj
    rw [hjo] at hj
    obtain ⟨hlr, hc⟩ := h.joined p j hj
    refine ⟨hlr, fun c hcj => ?_⟩
    rw [hf, hl]
    exact hc c hcj
  · rw [hl]
    exact h.ends

theorem flags (h : Forest x) (ht : ∀ k, ∃ c, x'.task k = { x.task k with cancelled := c })
    (hfr : ∀ k, (x.task k).state.isFree = true → x'.task k = x.task k)
    (hfs : x'.frames = x.frames) (hl : x'.limits = x.limits) : Forest x' := by
  refine h.steady (fun k => ?_) (funext fun k => ?_) (fun k => ?_) (fun k => ?_)
  · have hk := h.sits k
    obtain ⟨c, hc⟩ := ht k
    rw [stack, hfs, hl, hc]
    refine ⟨fun hf => ?_, hk.input, hk.halted, hk.closed, hk.depth⟩
    rw [← hc, hfr k hf]
    exact hk.fresh hf
  all_goals obtain ⟨c, hc⟩ := ht k
  · rw [links, hc]
    rfl
  all_goals rw [hc]

variable {frames : List (FrameKind V E)}

theorem puts (h : Forest x) (hx : Puts x x' i t frames) (hi : (x.task i).state.isFree = false)
    (hl : t.state.isFree = false) (hj : t.state.join = (x.task i).state.join)
    (hp : t.parent = (x.task i).parent) (hin : t.input ≠ none)
    (hh : ∀ o j, t.state = .halted o j → i = 0) (hd : ∀ o, t.state = .done o → frames = [])
    (hde : frames.length ≤ x.limits.framesPerTask) : Forest x' := by
  refine h.steady (fun k => ?_) (funext (hx.keeps Task.parent hp))
    (hx.keeps (·.state.isFree) (hl.trans hi.symm)) (hx.keeps (·.state.join) hj)
  rw [hx.limits]
  by_cases hk : k = i
  · subst hk
    rw [hx.task_self (lt_length_of_not_free hi), hx.stack_self]
    refine ⟨fun hf => ?_, fun _ => Option.ne_none_iff_exists'.mp hin, hh, hd, hde⟩
    rw [hl] at hf
    cases hf
  · rw [hx.task_other hk, hx.stack_other hk]
    exact h.sits k

theorem continues (h : Forest x)
    (hx : Puts x x' i t frames) (hi : (x.task i).state.isRunning = true)
    (ht : (x.task i).Continues t) (hd : frames.length ≤ x.limits.framesPerTask) :
    Forest x' := by
  have hf := State.not_free_of_isRunning hi
  refine h.puts hx hf (State.not_free_of_isRunning ht.running) ?_ ht.parent ?_ ?_ ?_ hd
  · rw [State.join_of_isRunning hi, State.join_of_isRunning ht.running]
  · obtain ⟨v, hv⟩ := h.input i hf
    exact ht.input (by rw [hv]; exact Option.some_ne_none v)
  · intro o j hst
    have hr := ht.running
    rw [hst] at hr
    cases hr
  · intro o hst
    have hr := ht.running
    rw [hst] at hr
    cases hr

theorem forks {left right : Nat} {input : V} (h : Forest x)
    (hx : Forks x x' i j left right input) (hst : (x.task i).state = .ready) : Forest x' := by
  have hi : (x.task i).state.isFree = false := by rw [hst]; rfl
  obtain ⟨hil, hir⟩ := hx.ne_of_live hi
  -- Nothing links to a free slot, so the new edges close no cycle.
  have hn : ∀ c, (x.task c).state.isFree = true → ∀ k, x.links k ≠ some c := by
    intro c hc k hk
    obtain ⟨j', hj', -⟩ := h.parent_join hk
    rw [live_of_join hj'] at hc
    cases hc
  have hlk : ∀ k, k ≠ j.left → k ≠ j.right → x'.links k = x.links k :=
    fun k hkl hkr => hx.keeps Task.parent rfl hkl hkr
  have hli : x'.links j.left = some i := by rw [links, hx.left_task]; rfl
  have hl : x'.links j.right = some i := by rw [links, hx.right_task]; rfl
  have hle' : ∀ {k}, (x.task k).state.isFree = false → (x'.task k).state.isFree = false := by
    intro k hk
    obtain ⟨hkl, hkr⟩ := hx.ne_of_live hk
    rw [hx.keeps (·.state.isFree) hi.symm hkl hkr]
    exact hk
  have hs : ∀ k, Sits x'.limits.framesPerTask k (x'.task k) (x'.stack k) := by
    intro k
    have hk := h.sits k
    rw [stack, hx.frames, hx.limits]
    by_cases hki : k = i
    · subst hki
      rw [hx.self]
      exact .of_open rfl rfl (hk.input hi) hk.depth
    by_cases hkl : k = j.left
    · subst hkl
      rw [hx.left_task]
      exact .of_open rfl rfl ⟨input, rfl⟩ hk.depth
    by_cases hkr : k = j.right
    · subst hkr
      rw [hx.right_task]
      exact .of_open rfl rfl ⟨input, rfl⟩ hk.depth
    rw [hx.other k hki hkl hkr]
    exact hk
  refine ⟨hle' h.root_live, ?_, fun k => (hs k).fresh, fun k => (hs k).input, ?_, ?_,
    fun k => (hs k).halted, fun k => (hs k).closed, fun k => (hs k).depth, ?_⟩
  · rw [hlk 0 (hx.ne_of_live h.root_live).1 (hx.ne_of_live h.root_live).2]
    exact h.root_parent
  · intro k h0 hk
    by_cases hkl : k = j.left
    · exact ⟨i, j, hkl ▸ hli, by rw [hx.self]; rfl, .inl hkl⟩
    by_cases hkr : k = j.right
    · exact ⟨i, j, hkr ▸ hl, by rw [hx.self]; rfl, .inr hkr⟩
    have hk' : (x.task k).state.isFree = false := by
      rwa [hx.keeps (·.state.isFree) hi.symm hkl hkr] at hk
    obtain ⟨p, j', hp, hj', hkj⟩ := h.child k h0 hk'
    have hpi : p ≠ i := by
      rintro rfl
      rw [hst] at hj'
      cases hj'
    have hpe := hx.ne_of_live (live_of_join hj')
    exact ⟨p, j', by rw [hlk k hkl hkr, hp], by rw [hx.other p hpi hpe.1 hpe.2, hj'], hkj⟩
  · intro p j' hj'
    by_cases hpi : p = i
    · subst hpi
      rw [hx.self] at hj'
      obtain rfl : j = j' := Option.some.inj hj'
      refine ⟨hx.distinct, ?_⟩
      rintro c (rfl | rfl)
      · exact ⟨by rw [hx.left_task]; rfl, hli⟩
      · exact ⟨by rw [hx.right_task]; rfl, hl⟩
    by_cases hpl : p = j.left
    · subst hpl
      rw [hx.left_task] at hj'
      cases hj'
    by_cases hpr : p = j.right
    · subst hpr
      rw [hx.right_task] at hj'
      cases hj'
    rw [hx.other p hpi hpl hpr] at hj'
    obtain ⟨hlr, hc⟩ := h.joined p j' hj'
    refine ⟨hlr, fun c hcj => ?_⟩
    obtain ⟨hcl, hck⟩ := hc c hcj
    exact ⟨hle' hcl, by rw [hlk c (hx.ne_of_live hcl).1 (hx.ne_of_live hcl).2, hck]⟩
  · have hlt : ∀ k, Walk.Ends (Function.update x.links j.left (some i)) k := by
      refine Walk.Ends.of_edge (fun k hk => update_of_ne hk _ _) (update_self ..) ?_ h.ends
      intro hv
      rcases hv.eq_or_step with heq | ⟨k, hk⟩
      · exact hil heq
      · exact hn _ hx.left_free k hk
    refine Walk.Ends.of_edge (f := Function.update x.links j.left (some i)) (c := j.right)
      (fun k hk => ?_) hl ?_ hlt
    · by_cases hkl : k = j.left
      · rw [hkl, hli, update_self]
      · rw [hlk k hkl hk, update_of_ne hkl]
    · intro hv
      rcases hv.eq_or_step with heq | ⟨k, hk⟩
      · exact hir heq
      · by_cases hkl : k = j.left
        · rw [hkl, update_self] at hk
          exact hir (Option.some.inj hk)
        · rw [update_of_ne hkl] at hk
          exact hn _ hx.right_free k hk

theorem joins (h : Forest x) (hx : Joins x x' i j t) (hst : (x.task i).state = .joining j)
    (hl : (x.task j.left).state.join = none) (hr : (x.task j.right).state.join = none)
    (hli : t.state.isFree = false) (hj : t.state.join = none)
    (hpa : t.parent = (x.task i).parent) (hi : t.input ≠ none)
    (hh : ∀ o j', t.state ≠ .halted o j') (hd : ∀ o, t.state ≠ .done o) : Forest x' := by
  obtain ⟨-, hch⟩ := h.joined i j (by rw [hst]; rfl)
  obtain ⟨-, hlp⟩ := hch j.left (.inl rfl)
  obtain ⟨-, hrp⟩ := hch j.right (.inr rfl)
  have hro : 0 ≠ j.left ∧ 0 ≠ j.right := by
    constructor
    · intro h0
      rw [← h0, h.root_parent] at hlp
      cases hlp
    · intro h0
      rw [← h0, h.root_parent] at hrp
      cases hrp
  have hlk : ∀ k, k ≠ j.left → k ≠ j.right → x'.links k = x.links k :=
    fun k hkl hkr => hx.keeps Task.parent hpa hkl hkr
  have hlink_left : x'.links j.left = none := by rw [links, hx.left_task]
  have hlt : x'.links j.right = none := by rw [links, hx.right_task]
  have hli' : ∀ {k}, k ≠ j.left → k ≠ j.right →
      (x'.task k).state.isFree = (x.task k).state.isFree :=
    fun hkl hkr => hx.keeps (·.state.isFree) (by rw [hli, hst]; rfl) hkl hkr
  have hs : ∀ k, Sits x'.limits.framesPerTask k (x'.task k) (x'.stack k) := by
    intro k
    have hk := h.sits k
    rw [hx.limits]
    by_cases hkl : k = j.left
    · rw [hkl, hx.left_task, hx.left_stack]
      exact .free _ _
    by_cases hkr : k = j.right
    · rw [hkr, hx.right_task, hx.right_stack]
      exact .free _ _
    rw [hx.stack_other k hkl hkr]
    by_cases hki : k = i
    · subst hki
      rw [hx.self]
      refine ⟨fun hf => ?_, fun _ => Option.ne_none_iff_exists'.mp hi,
        fun o j' ho => absurd ho (hh o j'), fun o ho => absurd ho (hd o), hk.depth⟩
      rw [hli] at hf
      cases hf
    · rw [hx.other k hki hkl hkr]
      exact hk
  refine ⟨(hli' hro.1 hro.2).trans h.root_live, ?_, fun k => (hs k).fresh,
    fun k => (hs k).input, ?_, ?_, fun k => (hs k).halted, fun k => (hs k).closed,
    fun k => (hs k).depth, ?_⟩
  · rw [hlk 0 hro.1 hro.2]
    exact h.root_parent
  · intro k h0 hk
    obtain ⟨hkl, hkr⟩ := hx.ne_of_live hk
    obtain ⟨p, j', hp, hj', hkj⟩ := h.child k h0 ((hli' hkl hkr).symm.trans hk)
    have hpi : p ≠ i := by
      rintro rfl
      rw [hst] at hj'
      obtain rfl : j = j' := Option.some.inj hj'
      rcases hkj with rfl | rfl
      · exact hkl rfl
      · exact hkr rfl
    have hpl : p ≠ j.left := by
      rintro rfl
      rw [hl] at hj'
      cases hj'
    have hpr : p ≠ j.right := by
      rintro rfl
      rw [hr] at hj'
      cases hj'
    exact ⟨p, j', by rw [hlk k hkl hkr, hp], by rw [hx.other p hpi hpl hpr, hj'], hkj⟩
  · intro p j' hj'
    obtain ⟨hpl, hpr⟩ := hx.ne_of_live (live_of_join hj')
    have hpi : p ≠ i := by
      rintro rfl
      rw [hx.self, hj] at hj'
      cases hj'
    rw [hx.other p hpi hpl hpr] at hj'
    obtain ⟨hlr, hc⟩ := h.joined p j' hj'
    refine ⟨hlr, fun c hcj => ?_⟩
    obtain ⟨hce, hck⟩ := hc c hcj
    have hcl : c ≠ j.left := by
      rintro rfl
      exact hpi (Option.some.inj (hck.symm.trans hlp))
    have hcr : c ≠ j.right := by
      rintro rfl
      exact hpi (Option.some.inj (hck.symm.trans hrp))
    exact ⟨(hli' hcl hcr).trans hce, by rw [hlk c hcl hcr, hck]⟩
  · refine fun k => Walk.Ends.of_sub (fun k => ?_) (h.ends k)
    by_cases hkl : k = j.left
    · exact .inr (hkl ▸ hlink_left)
    by_cases hkr : k = j.right
    · exact .inr (hkr ▸ hlt)
    exact .inl (hlk k hkl hkr)

end Forest
end Execution

/-! ## Transitions of a machine -/

namespace Machine

open TaskCell Execution

variable (image : ProgramImage V E) (values : Values S V E) {m : Machine S V E} {i : Nat}

theorem puts_onTask {α : Type} {f : Step (Focus S V E) α} {g : Step (Local S V E) α}
    (hi : i < m.exec.tasks.length) (h : Agrees m.exec i f g)
    (ht : m.exec.ticket ≤ (g.run (m.view i)).2.ticket) : (onTask i f m).1 = (g.run (m.view i)).1 ∧
      Puts m.exec (onTask i f m).2.exec i (g.run (m.view i)).2.task (g.run (m.view i)).2.stack ∧
      (onTask i f m).2.exec.ticket = (g.run (m.view i)).2.ticket := by
  obtain ⟨frames, heq, hs, hid⟩ := onTask_eq hi h
  have hp : onTask i f m = ((g.run (m.view i)).1, m.put (g.run (m.view i)).2 frames) := heq
  rw [hp]
  refine ⟨rfl, ⟨?_, hs, rfl, rfl, rfl, rfl, ht⟩, rfl⟩
  have hid' : (g.run (m.view i)).2.index = i := hid
  rw [put, hid']

variable {outcome : Except E V} {j : JoinState}

theorem transition_returning
    (hst : (m.exec.task i).state = .returning outcome) : transition image values i m =
      ((onTask i (unwind image values outcome) m).1.map fun _ => none,
        (onTask i (unwind image values outcome) m).2) := by
  unfold transition getExec
  simp only [bind, StateT.bind, hst]
  rfl

theorem transition_joining (hst : (m.exec.task i).state = .joining j) :
    transition image values i m =
      ((joinStep image values i j m).1.map fun _ => none, (joinStep image values i j m).2) := by
  unfold transition getExec
  simp only [bind, StateT.bind, hst]
  rfl

theorem transition_ready (hst : (m.exec.task i).state = .ready) :
    transition image values i m =
      match onTask i (dispatch image values) m with
      | (.ok s, m') => signal i s m'
      | (.error e, m') => (.error e, m') := by
  unfold transition getExec
  simp only [bind, StateT.bind, hst]
  rcases onTask i (dispatch image values) m with ⟨_ | _, _⟩ <;> rfl

theorem signal_fork (left right : Nat) (join : Join) (node : Nat) (input : V) :
    signal i (.fork left right join node input) m =
      match m.exec.fork i left right join node input with
      | .ok x => (.ok none, { m with exec := x })
      | .error e => (.error e, m) := by
  show (match m.exec.fork i left right join node input with
    | .ok x => _
    | .error e => _ : StateM (Machine S V E) _) m = _
  cases m.exec.fork i left right join node input <;> rfl

theorem puts_fault (hi : i < m.exec.tasks.length) (e : Fault) :
    (onTask i (faultResult values e) m).1 =
      (values.faulted e (m.exec.task i) m.host).1 ∧
    Puts m.exec (onTask i (faultResult values e) m).2.exec i
      (m.exec.task i) (m.exec.stack i) := by
  obtain ⟨frames, heq, hs, hid⟩ := onTask_eq hi ((mirrors_views hi).sim_faultResult values e)
  rw [Local.faultResult_eq] at heq hs
  rw [heq]
  refine ⟨rfl, ⟨?_, hs, rfl, rfl, rfl, rfl, le_refl _⟩⟩
  rfl

theorem perform_eq : perform image values i m =
    match transition image values i m with
    | (.ok (some r), m') => (.request r, m')
    | (.ok none, m') => (.moved, m')
    | (.error e, m') => (.faulted e,
        { (onTask i (faultResult values e) m').2 with
          exec := (onTask i (faultResult values e) m').2.exec.setState i
            (.returning (onTask i (faultResult values e) m').1) }) := by
  unfold perform
  simp only [bind, StateT.bind]
  rcases transition image values i m with ⟨_ | _ | _, _⟩ <;> rfl

theorem perform_fault {x : Execution V E} {t : Task V E} {frames : List (FrameKind V E)}
    {m' : Machine S V E} {e : Fault} (h : transition image values i m = (.error e, m'))
    (hi : i < x.tasks.length) (hx : Puts x m'.exec i t frames) :
    (perform image values i m).1 = .faulted e ∧
    Puts x (perform image values i m).2.exec i (t.returned (values.faulted e t m'.host).1)
      frames := by
  rw [perform_eq, h]
  have hi' : i < m'.exec.tasks.length := hx.length ▸ hi
  obtain ⟨hr, hp⟩ := puts_fault values hi' e
  rw [hx.task_self hi] at hr hp
  rw [hx.stack_self] at hp
  refine ⟨rfl, ?_⟩
  dsimp only
  rw [hr]
  have hs := Puts.setTask (onTask i (faultResult values e) m').2.exec i
    { (onTask i (faultResult values e) m').2.exec.task i with
      state := .returning (values.faulted e t m'.host).1 }
  rw [hp.task_self hi', hp.stack_self] at hs
  rw [Execution.setState, hp.task_self hi']
  exact hx.trans (hp.trans hs)

theorem moves_returning (hi : i < m.exec.tasks.length)
    (hst : (m.exec.task i).state = .returning outcome) :
    Moves image values m.exec i (perform image values i m).1 (perform image values i m).2.exec := by
  have ht := transition_returning image values hst
  have ha := ((mirrors_views hi).follows_unwind image values outcome).simE
  have hru := Local.run_unwind image values (m.view i) outcome
  generalize hl : values.landed outcome (m.view i).task.input (m.view i).host = landed at hru
  obtain ⟨⟨outcome', control⟩, s⟩ := landed
  have hl' : (values.landed outcome (m.exec.task i).input m.host).1 = (outcome', control) := by
    show (values.landed outcome (m.view i).task.input (m.view i).host).1 = _
    rw [hl]
  rcases hs : m.exec.stack i with _ | ⟨frame, rest⟩
  · have hs' : (m.view i).stack = [] := hs
    rw [hs'] at hru
    obtain ⟨hr, hp, -⟩ := puts_onTask hi ha (by rw [hru]; exact le_refl _)
    rw [hru] at hr hp
    rw [perform_eq, ht, hr]
    exact .closed _ hst hs hl' hp
  · have hs' : (m.view i).stack = frame :: rest := hs
    rw [hs'] at hru
    dsimp only at hru
    have hrs := Local.resumed image values { m.view i with
      task := { (m.view i).task with state := .ready, input := some control }
      host := s, stack := rest } frame outcome'
    rw [← hru] at hrs
    obtain ⟨hk, htk, hrs⟩ := hrs
    obtain ⟨hr, hp, -⟩ := puts_onTask hi ha htk.ge
    generalize hre : (unwind image values outcome).run (m.view i) = result at hrs hr hp
    obtain ⟨r, y⟩ := result
    cases r with
    | ok u =>
      obtain ⟨pushed, hm, hsk⟩ := hrs
      rw [perform_eq, ht, hr]
      have hp' : Puts m.exec _ i y.task (pushed ++ rest) := hsk ▸ hp
      exact .resumed _ hst hs hl' hm hp'
    | error e =>
      obtain ⟨hta, hsk, hne, hcl, hro⟩ := hrs
      rw [hr] at ht
      obtain ⟨htu, hpu⟩ := perform_fault image values ht hi hp
      rw [htu]
      rw [hta, hsk] at hpu
      exact .stuck _ _ hst hs hl' hne hcl hro hpu

theorem moves_ready {v : V} (hst : (m.exec.task i).state = .ready)
    (hv : (m.exec.task i).input = some v) :
    Moves image values m.exec i (perform image values i m).1 (perform image values i m).2.exec := by
  have hf : (m.exec.task i).state.isFree = false := by rw [hst]; rfl
  have hi := lt_length_of_not_free hf
  have ht := transition_ready image values hst
  have hdi := Local.dispatched image values (m.view i) hv
  generalize hre : (dispatch image values).run (m.view i) = result at hdi
  obtain ⟨hke, htk, hro, input, hca⟩ := hdi
  obtain ⟨hr, hp, hlast⟩ := puts_onTask hi
    ((mirrors_views hi).follows_dispatch image values fun _ _ _ _ _ => trivial).simE
    (by rw [hre]; exact htk)
  rw [hre] at hr hp hlast
  generalize hm : onTask i (dispatch image values) m = done at ht hr hp hlast
  obtain ⟨r, m'⟩ := done
  obtain ⟨r', y⟩ := result
  obtain rfl : r = r' := hr
  cases r with
  | error e =>
    obtain ⟨hta, hne, pushed, hsk, hps, he⟩ := hca
    obtain ⟨htu, hpu⟩ := perform_fault image values ht hi hp
    rw [hta, hsk] at hpu
    rw [hsk] at hro
    rw [htu]
    exact .refused _ hst hps hro he hne hpu
  | ok signal =>
    obtain ⟨node, pushed, hn, hd, hsk, hrq⟩ := hca
    rw [hsk] at hro hp
    cases signal with
    | idle =>
      rw [perform_eq, ht]
      exact .dispatched hst hv hn hd hro hp
    | request r =>
      rw [perform_eq, ht]
      obtain ⟨hfr, hy⟩ := hrq r rfl
      exact .requested hst hv hn hd hp hfr (hlast.trans hy)
    | fork left right join pc v =>
      generalize hta : y.task = t at hd hp
      cases hd with
      | fork hk =>
        have hp' : Puts m.exec m'.exec i { m.exec.task i with input := some input }
          (m.exec.stack i) := hp
        have hf' : (m'.exec.task i).state.isFree = false := by
          rw [hp'.task_self hi]
          exact hf
        replace ht := ht.trans (signal_fork left right join (m.exec.task i).pc v)
        rcases hfo : m'.exec.fork i left right join (m.exec.task i).pc v with e | x'
        · obtain ⟨rfl, hs⟩ := fork_error hfo
          rw [hfo] at ht
          obtain ⟨htu, hpu⟩ := perform_fault image values ht hi hp'
          rw [htu]
          have hsa : m.exec.freeSlots.length = m'.exec.freeSlots.length := by
            unfold freeSlots
            rw [hp'.length]
            congr 1
            exact List.filter_congr fun k _ => (hp'.keeps (·.state.isFree) rfl k).symm
          exact .starved _ hst hn hk (hsa ▸ hs) hpu
        · obtain ⟨a, b, hfs⟩ := forks_of_fork hf' hfo
          rw [hfo] at ht
          rw [perform_eq, ht]
          exact .forked hst hv hn hk rfl hp' hfs

theorem resolve_eq (j : JoinState) (a b : Except E V) : resolve image values i j a b m =
      onTask i (finish image values j.node
        (values.settled j.join (m.exec.task j.left).cancelled a b m.host).1)
        { exec := m.exec.clear j
          host := (values.settled j.join (m.exec.task j.left).cancelled a b m.host).2 } := rfl

theorem joinStep_eq (j : JoinState) : joinStep image values i j m =
    match (m.exec.task j.left).state, (m.exec.task j.right).state with
    | .done a, .done b => resolve image values i j a b { m with exec := m.exec.sweep j }
    | _, _ => (.ok (), { m with exec := m.exec.sweep j }) := by
  unfold joinStep getExec
  simp only [bind, StateT.bind]
  cases (m.exec.task j.left).state <;> cases (m.exec.task j.right).state <;> rfl

theorem moves_joining (hx : Forest m.exec) (hst : (m.exec.task i).state = .joining j) :
    Moves image values m.exec i (perform image values i m).1 (perform image values i m).2.exec := by
  have hi : i < m.exec.tasks.length := lt_length_of_not_free (by rw [hst]; rfl)
  obtain ⟨hlr, hch⟩ := hx.joined i j (by rw [hst]; rfl)
  obtain ⟨hll, hlp⟩ := hch j.left (.inl rfl)
  obtain ⟨hrl, hrp⟩ := hch j.right (.inr rfl)
  have hl := lt_length_of_not_free hll
  have hr := lt_length_of_not_free hrl
  have ht := transition_joining image values hst
  rw [joinStep_eq] at ht
  by_cases hd : ((m.exec.task j.left).state.isDone && (m.exec.task j.right).state.isDone) = true
  · rw [Bool.and_eq_true] at hd
    obtain ⟨hda, hdb⟩ := hd
    obtain ⟨a, ha⟩ := State.done_of_isDone hda
    obtain ⟨b, hb⟩ := State.done_of_isDone hdb
    simp only [ha, hb, resolve_eq] at ht
    generalize hs : values.settled j.join ((m.exec.sweep j).task j.left).cancelled a b m.host =
      settled at ht
    obtain ⟨result, s⟩ := settled
    have hle : ((m.exec.sweep j).clear j).tasks.length = m.exec.tasks.length := by
      rw [length_clear, length_sweep]
    have hil := hx.child_ne hlp
    have hir := hx.child_ne hrp
    have hta : ((m.exec.sweep j).clear j).task i = m.exec.task i := by
      rw [task_clear_other _ hil hir, hx.task_sweep_self (by rw [hst]; rfl)]
    generalize hm₁ : Machine.mk ((m.exec.sweep j).clear j) s = m₁ at ht
    have he : m₁.exec = (m.exec.sweep j).clear j := by rw [← hm₁]
    rw [← he] at hle hta
    have hi₁ : i < m₁.exec.tasks.length := hle ▸ hi
    have hru := Local.run_finish image values (m₁.view i) j.node result
    have hj : ∀ {x' : Execution V E} {t : Task V E}, Puts m₁.exec x' i t (m₁.exec.stack i) →
        Joins (m.exec.sweep j) x' i j t := fun h => by
      rw [he] at h
      exact joins_clear hlr hil hir (by rwa [length_sweep]) (by rwa [length_sweep])
        (by rwa [length_sweep]) h
    obtain ⟨hrs, hp, -⟩ := puts_onTask hi₁
      ((mirrors_views hi₁).follows_finish image values j.node result).simE
      (by rw [hru]; split <;> exact le_refl _)
    rw [hru] at hrs hp
    rcases hn : image.node j.node with e | instruction
    · rw [hn] at hrs hp
      rw [hrs] at ht
      obtain ⟨htu, hpu⟩ := perform_fault image values ht hi₁ hp
      have hpu' := hj hpu
      rw [show (m₁.view i).task = m.exec.task i from hta] at hpu'
      rw [htu]
      exact .broken _ hst ha hb hn hpu'
    · rw [hn] at hrs hp
      have hpu' := hj hp
      rw [show (m₁.view i).task = m.exec.task i from hta] at hpu'
      rw [perform_eq, ht, hrs]
      have hre : result =
          (values.settled j.join ((m.exec.sweep j).task j.left).cancelled a b m.host).1 := by
        rw [hs]
      subst hre
      exact .joined _ _ hst ha hb hn hpu'
  · have hm : perform image values i m = (.moved, { m with exec := m.exec.sweep j }) := by
      rw [perform_eq, ht]
      revert hd
      cases (m.exec.task j.left).state <;> cases (m.exec.task j.right).state <;>
        simp [State.isDone, Except.map]
    rw [hm]
    exact .swept hst (Bool.not_eq_true _ ▸ hd)

end Machine
end Xolotl.Core
