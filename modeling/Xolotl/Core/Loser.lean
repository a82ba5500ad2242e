import Xolotl.Core.Race
import Xolotl.Lib.Rotation

/-! The loser of a race that does not belong to a cleanup is cancelled: what waits
in its subtree, outside the cleanups entered there, is reported for cancellation
until the host answers it. -/

namespace Xolotl.Core

open List Walk

variable {S V E : Type}

def JoinState.loser (j : JoinState) (left : Bool) : Nat := if left then j.right else j.left

def Machine.Turn.busy : Machine.Turn V E → Bool
  | .request _ => true
  | .moved => true
  | .faulted _ => true
  | _ => false

def Report.busy : Report V E → Bool
  | .turn t => t.busy
  | _ => false

namespace Execution

variable {values : Values S V E} {x x' : Execution V E} {c p w : Nat} {j : JoinState}

/-- Whatever runs below `c` is flagged, or was forked inside a cleanup. -/
def Sealed (x : Execution V E) (c : Nat) : Prop :=
  ∀ u, Walk.Visits x.links u c → (x.task u).state.isFree = false →
    (x.task u).cancelled = true ∨ 0 < x.base u

theorem Lineage.visits (h : Lineage x x') (hf : Forest x) (hf' : Forest x') {n u : Nat}
    (hu : (x.task u).state.isFree = false) (hu' : (x'.task u).state.isFree = false)
    (hn : Walk.walk x'.links u n = some c) : Walk.Visits x.links u c := by
  induction n generalizing u with
  | zero => exact Option.some.inj hn ▸ visits_refl
  | succ n ih =>
    cases hq : x'.links u with
    | none =>
      rw [walk_succ_eq, hq] at hn
      cases hn
    | some q =>
      rw [walk_succ_eq, hq] at hn
      have hq₀ : x.links u = some q := (h.links u hu hu').symm.trans hq
      obtain ⟨j, hj, -⟩ := hf.parent_join hq₀
      obtain ⟨j', hj', -⟩ := hf'.parent_join hq
      exact (visits_of_step hq₀).trans (ih (Forest.live_of_join hj) (Forest.live_of_join hj') hn)

theorem Sealed.acts (h : Sealed x c) (hl : Lineage x x') (hcn : Counts x) (hf : Forest x)
    (hf' : Forest x') (hc : (x.task c).state.isFree = false) : Sealed x' c := by
  intro u hv hu'
  obtain ⟨n, hn⟩ := hv
  by_cases hu : (x.task u).state.isFree = true
  · -- A new task is forked by a task that was already below `c`.
    cases n with
    | zero =>
      obtain rfl := Option.some.inj hn
      rw [hu] at hc
      cases hc
    | succ n =>
      obtain ⟨q, hq, hr, -⟩ := hl.born u hu hu'
      obtain ⟨j, hj, -⟩ := hf'.parent_join hq
      rw [walk_succ_eq, hq] at hn
      have hql : (x.task q).state.isFree = false := by rw [hr]; rfl
      have hm := h q (hl.visits hf hf' hql (Forest.live_of_join hj) hn) hql
      exact .inr (hl.base_born hcn hf' hu hq hm)
  · rw [Bool.not_eq_true] at hu
    refine (h u (hl.visits hf hf' hu hu' hn) hu).imp (hl.flag u hu hu') fun hb => ?_
    rw [hl.base u hu hu']
    exact hb

theorem Forest.sealed_sweep (hf : Forest x) (hj : (x.task p).state.join = some j)
    (hr : j.join = .race)
    (hd : ((x.task j.left).state.isDone || (x.task j.right).state.isDone) = true) :
    Sealed (x.sweep j) (j.loser (x.task j.left).state.isDone) := by
  intro u hv hu
  obtain ⟨-, hc⟩ := hf.joined p j hj
  have hlt : ∀ left, j.loser left < x.tasks.length := by
    intro left
    refine lt_length_of_not_free (hc _ ?_).1
    cases left
    · exact .inl rfl
    · exact .inr rfl
  have hl : (x.sweep j).links = x.links := by
    funext k
    rw [links, task_sweep (hlt false) (hlt true)]
    rfl
  rw [hl] at hv
  have hs : x.sweep j = x.cancelTree (j.loser (x.task j.left).state.isDone) := by
    unfold Execution.sweep
    rw [if_pos ⟨hr, hd⟩]
    rfl
  rw [hs, task_cancelTree x (hlt _)]
  rcases visits_iff.mp hv with heq | ⟨q, hq, hvq⟩
  · rw [decide_eq_true heq]
    simp
  · rw [(hf.descends_iff _ u).mpr ⟨q, hq, hvq⟩]
    simp

theorem done_of_ready (h : x.ready p = true) (hst : (x.task p).state = .joining j) :
    ((x.task j.left).state.isDone || (x.task j.right).state.isDone) = true := by
  unfold ready at h
  rw [hst] at h
  rw [Bool.or_eq_true]
  rw [Bool.or_eq_true, Bool.and_eq_true, Bool.and_eq_true, Bool.or_eq_true, Bool.and_eq_true,
    Bool.and_eq_true] at h
  rcases h with ⟨hl, -⟩ | ⟨-, ⟨hl, -⟩ | ⟨hr, -⟩⟩
  · exact .inl hl
  · exact .inl hl
  · exact .inr hr

theorem Counts.along (h : Counts x) {n : Nat} (hn : Walk.walk x.links w n = some c)
    (hp : x.links c = some p)
    (hpa : ∀ k, Walk.Visits x.links w k → Walk.Visits x.links k c → cleanings (x.stack k) = 0) :
    x.base w = (x.task p).cleaning ∧ (x.task w).cleaning = (x.task p).cleaning := by
  have hs : x.base w = (x.task p).cleaning → (x.task w).cleaning = (x.task p).cleaning := by
    intro hb
    rw [h w, hb, hpa w visits_refl ⟨n, hn⟩, Nat.add_zero]
  suffices hb : x.base w = (x.task p).cleaning from ⟨hb, hs hb⟩
  induction n generalizing w with
  | zero =>
    obtain rfl := Option.some.inj hn
    rw [base, hp]
  | succ n ih =>
    cases hq : x.links w with
    | none =>
      rw [walk_succ_eq, hq] at hn
      cases hn
    | some q =>
      rw [walk_succ_eq, hq] at hn
      have hpa' : ∀ k, Walk.Visits x.links q k → Walk.Visits x.links k c →
          cleanings (x.stack k) = 0 := fun k hk => hpa k ((visits_of_step hq).trans hk)
      have hqs : x.base q = (x.task p).cleaning → (x.task q).cleaning = (x.task p).cleaning := by
        intro hb
        rw [h q, hb, hpa' q visits_refl ⟨n, hn⟩, Nat.add_zero]
      rw [base, hq]
      exact hqs (ih hn hpa' hqs)

/-! ## Waiting to be cancelled -/

/-- Task `w` waits for a ticket that the scan reports for cancellation. -/
structure Cancellable (x : Execution V E) (w ticket : Nat) : Prop where
  waiting : ∃ node, (x.task w).state = .waiting ticket node
  flagged : (x.task w).cancelled = true
  clean : (x.task w).cleaning = 0

variable {ticket : Nat} {a : Action V E} {r : Report V E} {image : ProgramImage V E}
  {t : Machine.Turn V E}

section

variable (h : Cancellable x w ticket)
include h

theorem Cancellable.quota : Cancellable x.quota w ticket := by
  obtain ⟨c, ht, hc⟩ := x.task_quota w
  obtain rfl := hc h.flagged
  refine ⟨?_, ?_, ?_⟩ <;> rw [ht]
  · exact h.waiting
  · exact h.clean

theorem Cancellable.not_passes : x.passes w = false := by
  obtain ⟨node, hst⟩ := h.waiting
  rw [passes, hst, h.flagged, h.clean]
  rfl

theorem Cancellable.lt_length : w < x.tasks.length := by
  obtain ⟨node, hst⟩ := h.waiting
  exact lt_length_of_not_free (by rw [hst]; rfl)

omit h in
theorem Selects.not_waiting {y : Execution V E} (h : Selects values x w y) (ticket node : Nat) :
    (x.task w).state ≠ .waiting ticket node := by
  intro hst
  cases h with
  | joining hst' | failing hst' => rw [hst] at hst'; cases hst'
  | working hst' | interrupted _ hst' =>
    rcases hst' with h | ⟨v, h⟩ <;> rw [hst] at h <;> cases h

omit h in
theorem Acts.keeps_waiting {node : Nat} (hw : w ≠ 0) (hf : Forest x) (hx : Acts values x a r x')
    (hst : (x.task w).state = .waiting ticket node)
    (ho : ∀ image event, a = .complete image w ticket event → r ≠ .complete (.ok ())) :
    (x'.task w).state = .waiting ticket node ∧ (x'.task w).cleaning = (x.task w).cleaning ∧
      ((x.task w).cancelled = true → (x'.task w).cancelled = true) := by
  have hl : (x.task w).state.isFree = false := by rw [hst]; rfl
  cases hx.fate hf hl with
  | kept c ht hc =>
    rw [ht]
    exact ⟨hst, rfl, hc⟩
  | gone hp hk hd => rw [hst] at hd; cases hd
  | halted hk => exact absurd hk hw
  | interrupted s hst' => rcases hst' with h | ⟨v, h⟩ <;> rw [hst] at h <;> cases h
  | moved hs => exact absurd ((x.state_quota w).trans hst) (hs.not_waiting _ _)
  | answered hst' hx =>
    rw [hst] at hst'
    cases hst'
    cases hx with
    | stale => exact ⟨hst, rfl, id⟩
    | delivered => exact absurd rfl (ho _ _ rfl)
    | refused hr hst' hne he hx =>
      rw [hx.task_self (lt_length_of_not_free hl)]
      exact ⟨hst, rfl, id⟩

theorem Cancellable.acts (hw : w ≠ 0) (hf : Forest x) (hx : Acts values x a r x')
    (ho : ∀ image event, a = .complete image w ticket event → r ≠ .complete (.ok ())) :
    Cancellable x' w ticket := by
  obtain ⟨node, hst⟩ := h.waiting
  obtain ⟨hst', hz, hc⟩ := hx.keeps_waiting hw hf hst ho
  exact ⟨⟨node, hst'⟩, hc h.flagged, hz.trans h.clean⟩

end

theorem cursor_sweep (x : Execution V E) (j : JoinState) : (x.sweep j).cursor = x.cursor := by
  unfold sweep
  dsimp only
  split <;> rfl

theorem cursor_cancel (x : Execution V E) : x.cancel.cursor = x.cursor := by
  unfold cancel
  split <;> rfl

theorem cursor_quota (x : Execution V E) : x.quota.cursor = x.cursor := by
  rcases x.quota_eq with h | h <;> rw [h]
  exact x.cursor_cancel

theorem Moves.cursor_eq (h : Moves image values x p t x') : x'.cursor = x.cursor := by
  cases h.course with
  | closed s hst hs hl hx | goes hi hx ht hd => exact hx.cursor
  | forks hst hn hk hj hx₁ hx => exact hx.cursor.trans hx₁.cursor
  | sweeps hst => exact cursor_sweep x _
  | settles hst ha hb hx => exact hx.cursor.trans (cursor_sweep x _)

/-- While a task waits to be cancelled, a turn reports a cancellation and leaves the
cursor, or it moves the cursor closer to that task, or the machine is over. -/
theorem Turned.approaches {d : Nat}
    (hf : Forest x) (h : Turned image values x t x') (hw : Cancellable x w ticket)
    (hd : Rotation.Ahead x.tasks.length x.cursor w d) :
    (∃ k ticket', t = .cancel k ticket' ∧ Cancellable x.quota k ticket' ∧
      Rotation.Ahead x'.tasks.length x'.cursor w d) ∨
    (t.busy = true ∧ ∃ d' < d, Rotation.Ahead x'.tasks.length x'.cursor w d') ∨
    (∃ result, t = .done result ∧ x' = x) ∨
    ∃ result, t = .halted result ∧ (x'.task 0).state.terminalResult = some result := by
  cases h with
  | done => exact .inr (.inr (.inl ⟨_, rfl, rfl⟩))
  | halted hr hse hx =>
    refine .inr (.inr (.inr ⟨_, rfl, ?_⟩))
    rw [hx.task_self (hf.quota.selects hse).lt_length_root]
    rfl
  | waiting hr hp =>
    have hpa := hp w hw.lt_length
    rw [hw.quota.not_passes] at hpa
    cases hpa
  | cancel hr hst hc hz =>
    refine .inl ⟨_, _, rfl, ⟨⟨_, hst⟩, hc, hz⟩, ?_⟩
    rw [length_quota, cursor_quota]
    exact hd
  | @moved i y z _ _ hr hse hz hm hs =>
    refine .inr (.inl ⟨by cases hm <;> rfl, ?_⟩)
    have hfi := ((Fixed.quota x).trans (.selects hse)).length
    rw [← x.length_quota, ← x.cursor_quota] at hd
    obtain ⟨offset, hle, hi⟩ := Rotation.exists_offset_of_find hs hd
      (by rw [hw.quota.not_passes]; rfl)
    -- The scan stops before `w`: at `w` itself it reports a cancellation.
    have hlt : offset < d := by
      refine Nat.lt_of_le_of_ne hle fun heq => ?_
      rw [heq, hd.2] at hi
      obtain ⟨node, hst⟩ := hw.quota.waiting
      exact hse.not_waiting _ node (hi ▸ hst)
    refine ⟨d - (offset + 1), by omega, ?_⟩
    have hcr : x'.cursor = (i + 1) % y.tasks.length := by rw [hm.cursor_eq, hz.eq]
    rw [hcr, (Fixed.moves hm).length, (Fixed.charges hz).length, hfi, hi, ← x.length_quota]
    exact hd.next hlt

theorem Acts.eq_of_terminal {result : Except E V}
    (h : Acts values x a r x') (hr : (x.task 0).state.terminalResult = some result) :
    x' = x ∧ r.busy = false := by
  cases h with
  | turn h =>
    cases h with
    | done => exact ⟨rfl, rfl⟩
    | waiting h | cancel h | halted h | moved h => rw [hr] at h; cases h
  | complete h =>
    cases h with
    | stale => exact ⟨rfl, rfl⟩
    | delivered h | refused h => rw [hr] at h; cases h
  | cancel => exact ⟨cancel_terminal (by rw [hr]; rfl), rfl⟩

/-- The machine is over, or slot `w` is at most `d` places after the cursor. -/
def Within (x : Execution V E) (w d : Nat) : Prop :=
  (x.task 0).state.terminalResult ≠ none ∨
    ∃ d' ≤ d, Rotation.Ahead x.tasks.length x.cursor w d'

theorem Within.acts {d : Nat} (h : Within x w d)
    (hf : Forest x) (hw : Cancellable x w ticket) (hx : Acts values x a r x') :
    (r.busy = false → Within x' w d) ∧ (r.busy = true → 0 < d ∧ Within x' w (d - 1)) := by
  rcases h with hr | ⟨d', hle, hd⟩
  · obtain ⟨result, hr⟩ := Option.ne_none_iff_exists'.mp hr
    obtain ⟨rfl, hb⟩ := hx.eq_of_terminal hr
    rw [hb]
    exact ⟨fun _ => .inl (by rw [hr]; exact Option.some_ne_none _), nofun⟩
  have hs : x'.tasks.length = x.tasks.length → x'.cursor = x.cursor → Within x' w d := by
    intro hl hc
    refine .inr ⟨d', hle, ?_⟩
    rw [hl, hc]
    exact hd
  cases hx with
  | cancel => exact ⟨fun _ => hs x.length_cancel x.cursor_cancel, nofun⟩
  | complete hx =>
    refine ⟨fun _ => ?_, nofun⟩
    cases hx with
    | stale => exact hs rfl rfl
    | delivered hr hst hd hro hx | refused hr hst hne he hx => exact hs hx.length hx.cursor
  | turn hx =>
    rcases hx.approaches hf hw hd with ⟨k, ticket', rfl, -, hd⟩ | ⟨hb, d'', hlt, hd⟩ |
      ⟨result, rfl, rfl⟩ | ⟨result, rfl, hr⟩
    · exact ⟨fun _ => .inr ⟨d', hle, hd⟩, nofun⟩
    · refine ⟨fun hi => ?_, fun _ => ⟨by omega, .inr ⟨d'', by omega, hd⟩⟩⟩
      exact absurd (hb.symm.trans hi) (by decide)
    · exact ⟨fun _ => .inr ⟨d', hle, hd⟩, nofun⟩
    · exact ⟨fun _ => .inl (by rw [hr]; exact Option.some_ne_none _), nofun⟩

end Execution

open Execution

variable {values : Values S V E} {x₀ x x' : Execution V E} {history later : List (Record S V E)}

/-- While a task waits to be cancelled, no more transitions happen than there are
places between the cursor and that task. -/
theorem Run.within (h₀ : x₀.Forest) {w ticket d : Nat} (hw : Cancellable x w ticket)
    (hw0 : w ≠ 0) (hd : Within x w d) (hru : Run values x₀ history x)
    (h : Run values x₀ (later ++ history) x')
    (ho : ∀ r ∈ later, ∀ image event, r.action = .complete image w ticket event →
      r.report values ≠ .complete (.ok ())) :
    Cancellable x' w ticket ∧ (∀ r ∈ later, Cancellable r.before.exec w ticket) ∧
      later.countP (fun r => (r.report values).busy) ≤ d ∧
      Within x' w (d - later.countP fun r => (r.report values).busy) := by
  induction later generalizing x' with
  | nil =>
    obtain rfl : x = x' := by cases hru <;> cases h <;> rfl
    exact ⟨hw, by simp, Nat.zero_le d, hd⟩
  | cons r later ih =>
    cases h with
    | cons _ h he hok =>
    subst he
    obtain ⟨hwa, hal, hc, hwt⟩ := ih h fun r' hr' => ho r' (mem_cons_of_mem _ hr')
    have hf := h.forest h₀
    have ha := r.acts values hf
    refine ⟨hwa.acts hw0 hf ha (ho r mem_cons_self), forall_mem_cons.mpr ⟨hwa, hal⟩, ?_⟩
    obtain ⟨hi, hb⟩ := hwt.acts hf hwa ha
    rw [countP_cons]
    cases hr : (r.report values).busy with
    | false => exact ⟨hc, hi hr⟩
    | true =>
      obtain ⟨hpos, hn⟩ := hb hr
      refine ⟨?_, ?_⟩
      · rw [if_pos rfl]
        omega
      · rwa [← Nat.sub_sub]

theorem Run.not_reported (h₀ : x₀.Forest) {w ticket node : Nat} (hw0 : w ≠ 0)
    (hw : (x.task w).state = .waiting ticket node) (hz : 0 < (x.task w).cleaning)
    (hru : Run values x₀ history x) (h : Run values x₀ (later ++ history) x')
    (ho : ∀ r ∈ later, ∀ image event, r.action = .complete image w ticket event →
      r.report values ≠ .complete (.ok ())) :
    ((x'.task w).state = .waiting ticket node ∧ 0 < (x'.task w).cleaning) ∧
      ∀ r ∈ later, ∀ ticket', r.report values ≠ .turn (.cancel w ticket') := by
  induction later generalizing x' with
  | nil =>
    obtain rfl : x = x' := by cases hru <;> cases h <;> rfl
    exact ⟨⟨hw, hz⟩, by simp⟩
  | cons r later ih =>
    cases h with
    | cons _ h he hok =>
    subst he
    obtain ⟨⟨hwa, hza⟩, hno⟩ := ih h fun r' hr' => ho r' (mem_cons_of_mem _ hr')
    have hf := h.forest h₀
    have ha := r.acts values hf
    obtain ⟨hst, hcl, -⟩ := ha.keeps_waiting hw0 hf hwa (ho r mem_cons_self)
    refine ⟨⟨hst, by rw [hcl]; exact hza⟩, forall_mem_cons.mpr ⟨fun ticket' hr => ?_, hno⟩⟩
    rw [hr] at ha
    generalize r.action = a at ha
    generalize (r.after values).exec = x' at ha
    -- The scan only reports tasks whose counter is zero.
    cases ha with
    | turn h =>
      cases h with
      | cancel hr hst hc hq =>
        obtain ⟨c, ht, -⟩ := r.before.exec.task_quota w
        rw [ht] at hq
        exact absurd hq hza.ne'
      | moved hr hse hz hm => cases hm

theorem Run.sealed {image : ProgramImage V E} (h₀ : Started image x₀) (h : Run values x₀ history x)
    {p : Nat} {j : JoinState} {left : Bool} (hst : (x.task p).state = .joining j)
    (hra : j.join = .race) (hw : winner values history p = some left) :
    Sealed x (j.loser left) := by
  induction h with
  | nil => cases hw
  | cons r hru he hok ih =>
    subst he
    have hf := hru.forest (.started h₀)
    have ha := r.acts values hf
    rcases ha.joining hf hst with hst₀ | ⟨hre, -⟩
    · rw [winner_cons hst₀] at hw
      cases hold : winner values _ p with
      | some l =>
        rw [hold] at hw
        obtain rfl : l = left := Option.some.inj hw
        refine (ih hst₀ hold).acts (Lineage.acts hf ha)
          (hru.counts (.started h₀) (.started h₀)) hf (hf.acts ha) ?_
        refine ((hf.joined p j (by rw [hst₀]; rfl)).2 _ ?_).1
        cases l
        · exact .inl rfl
        · exact .inr rfl
      | none =>
        rw [hold] at hw
        split at hw
        · next hj =>
          obtain rfl := Option.some.inj hw
          obtain ⟨used, t, z, -, -, hz, hre, hm⟩ := Record.step_of_joins hst₀ hf hj
          have hs : ∀ k, (z.task k).state = (r.before.exec.task k).state := fun k => by
            rw [hz.task_eq, state_quota]
          have hzj : (z.task p).state = .joining j := by rw [hs, hst₀]
          rcases (hm.of_joining hzj).2 with ⟨heq, -⟩ | ⟨a, b, u, -, -, hx, hr, -⟩
          · rw [heq, ← hs]
            exact (hf.quota.charges hz).sealed_sweep (by rw [hzj]; rfl) hra
              (Execution.done_of_ready hre hzj)
          · rw [hx.self] at hst
            rw [hst] at hr
            cases hr
        · cases hw
    · rw [winner_cons_none hre] at hw
      cases hw

theorem Record.reports_cancellation (r : Record S V E) {w ticket : Nat} {t : Machine.Turn V E}
    (hf : r.before.exec.Forest) (hw : r.before.exec.Cancellable w ticket)
    (ht : r.report values = .turn t) :
    (∃ k ticket', t = .cancel k ticket' ∧ r.before.exec.quota.Cancellable k ticket') ∨
      t.busy = true ∨ ∃ result, t = .done result ∨ t = .halted result := by
  have ha := r.acts values hf
  rw [ht] at ha
  obtain ⟨d, hd⟩ := Rotation.exists_ahead r.before.exec.cursor hw.lt_length
  generalize r.action = a at ha
  cases ha with
  | turn h =>
    rcases h.approaches hf hw hd with ⟨k, ticket', heq, hk, -⟩ | ⟨hb, -⟩ | ⟨result, heq, -⟩ |
      ⟨result, heq, -⟩
    · exact .inl ⟨k, ticket', heq, hk⟩
    · exact .inr (.inl hb)
    · exact .inr (.inr ⟨result, .inl heq⟩)
    · exact .inr (.inr ⟨result, .inr heq⟩)

/-- In every run, a race that has taken its deciding join step, and a task of the losing
subtree that waits outside the cleanups entered there. If the race does not belong to a
cleanup of its task, the task stays reported for cancellation until its ticket is
answered: no turn is idle, all but fewer turns than there are slots report a waiting task
that is to be cancelled, unless the machine is over. If it does, the task is never
reported. -/
theorem race_loser_is_cancelled {image : ProgramImage V E} (h₀ : Started image x₀)
    (h : Run values x₀ history x) {p : Nat} {j : JoinState} {left : Bool}
    (hst : (x.task p).state = .joining j) (hrace : j.join = .race)
    (hwin : winner values history p = some left)
    {w ticket node : Nat} (hw : (x.task w).state = .waiting ticket node)
    (hunder : Walk.Visits x.links w (j.loser left))
    (hpath : ∀ k, Walk.Visits x.links w k → Walk.Visits x.links k (j.loser left) →
      cleanings (x.stack k) = 0)
    (hlater : Run values x₀ (later ++ history) x')
    (hopen : ∀ r ∈ later, ∀ image event, r.action = .complete image w ticket event →
      r.report values ≠ .complete (.ok ())) :
    ((x.task p).cleaning = 0 → x'.Cancellable w ticket ∧
      (∀ r ∈ later, ∀ t, r.report values = .turn t → r.before.exec.Cancellable w ticket ∧
        ((∃ k ticket', t = .cancel k ticket' ∧ r.before.exec.quota.Cancellable k ticket') ∨
          t.busy = true ∨ ∃ result, t = .done result ∨ t = .halted result)) ∧
      later.countP (fun r => (r.report values).busy) < x.tasks.length ∧
      ∀ m, m.exec = x' → ∀ used fuel, used.id = x'.imageId →
        (Machine.advance used values fuel m).1 ≠ .waiting) ∧
    (0 < (x.task p).cleaning → (x'.task w).state = .waiting ticket node ∧
      (∀ r ∈ later, ∀ ticket', r.report values ≠ .turn (.cancel w ticket')) ∧
      ∀ m, m.exec = x' → ∀ used fuel ticket',
        (Machine.advance used values fuel m).1 ≠ .cancel w ticket') := by
  have hf₀ := Forest.started h₀
  have hf := h.forest hf₀
  obtain ⟨-, hchild⟩ := hf.joined p j (by rw [hst]; rfl)
  obtain ⟨-, hlink⟩ := hchild (j.loser left) (by
    cases left
    · exact .inl rfl
    · exact .inr rfl)
  have hw0 : w ≠ 0 := by
    rintro rfl
    rcases visits_iff.mp hunder with heq | ⟨q, hq, -⟩
    · rw [← heq, hf.root_parent] at hlink
      cases hlink
    · rw [hf.root_parent] at hq
      cases hq
  obtain ⟨n, hn⟩ := hunder
  obtain ⟨hbase, hcleaning⟩ := (h.counts hf₀ (.started h₀)).along hn hlink hpath
  -- What an `advance` call does is a run of turns after `later`, with the ticket still open.
  have hadvance : ∀ m, m.exec = x' → ∀ used fuel, used.id = x'.imageId → ∃ turns,
      Run values x₀ ((turns ++ later) ++ history) (Machine.advanceLoop used values fuel m).2.exec ∧
      (∀ r ∈ turns ++ later, ∀ image event, r.action = .complete image w ticket event →
        r.report values ≠ .complete (.ok ())) ∧
      ((Machine.advance used values fuel m).1 = .yielded ∨ ∃ r ∈ turns, ∃ t,
        r.report values = .turn t ∧ t.answer = some (Machine.advance used values fuel m).1) := by
    intro m hm used fuel hid
    subst hm
    obtain ⟨turns, hturns, hactions, -, hlast⟩ := hlater.advanceLoop hf₀ hid fuel
    rw [← append_assoc] at hturns
    rw [Machine.advance_eq_advanceLoop values hid]
    refine ⟨turns, hturns, fun r hr image event ha => ?_, hlast.imp_right ?_⟩
    · rcases mem_append.mp hr with hr | hr
      · rw [hactions r hr] at ha
        cases ha
      · exact hopen r hr image event ha
    · rintro ⟨r, rest, t, rfl, hreport, hanswer⟩
      exact ⟨r, mem_cons_self, t, hreport, hanswer⟩
  refine ⟨fun hclean => ?_, fun hpos => ?_⟩
  · have hcancel : x.Cancellable w ticket := by
      refine ⟨⟨node, hw⟩, ?_, hcleaning.trans hclean⟩
      rcases h.sealed h₀ hst hrace hwin w ⟨n, hn⟩ (by rw [hw]; rfl) with hflag | hpos
      · exact hflag
      · omega
    obtain ⟨d, hd⟩ := Rotation.exists_ahead x.cursor hcancel.lt_length
    obtain ⟨hcancel', hall, hcount, -⟩ :=
      Run.within hf₀ hcancel hw0 (.inr ⟨d, le_refl d, hd⟩) h hlater hopen
    refine ⟨hcancel', ?_, Nat.lt_of_le_of_lt hcount hd.1, ?_⟩
    · intro r hr t ht
      obtain ⟨older, holder⟩ := hlater.of_mem (mem_append_left _ hr)
      exact ⟨hall r hr, r.reports_cancellation (holder.forest hf₀) (hall r hr) ht⟩
    · intro m hm used fuel hid hwaiting
      obtain ⟨turns, hturns, hopen', hlast⟩ := hadvance m hm used fuel hid
      obtain ⟨-, hall', -⟩ := Run.within hf₀ hcancel hw0 (.inr ⟨d, le_refl d, hd⟩) h hturns hopen'
      rw [hwaiting] at hlast
      rcases hlast with hyield | ⟨r, hr, t, hreport, hanswer⟩
      · cases hyield
      · have hr' := mem_append_left later hr
        obtain ⟨older, holder⟩ := hturns.of_mem (mem_append_left _ hr')
        rcases r.reports_cancellation (holder.forest hf₀) (hall' r hr') hreport with
          ⟨k, ticket', rfl, -⟩ | hbusy | ⟨result, rfl | rfl⟩
        · cases hanswer
        · cases t <;> cases hbusy <;> cases hanswer
        · cases hanswer
        · cases hanswer
  · have hz : 0 < (x.task w).cleaning := by rw [hcleaning]; exact hpos
    obtain ⟨⟨hw', -⟩, hno⟩ := Run.not_reported hf₀ hw0 hw hz h hlater hopen
    refine ⟨hw', hno, fun m hm used fuel ticket' hcancel => ?_⟩
    by_cases hid : used.id = x'.imageId
    · obtain ⟨turns, hturns, hopen', hlast⟩ := hadvance m hm used fuel hid
      rw [hcancel] at hlast
      rcases hlast with hyield | ⟨r, hr, t, hreport, hanswer⟩
      · cases hyield
      · obtain ⟨-, hno'⟩ := Run.not_reported hf₀ hw0 hw hz h hturns hopen'
        cases t <;> cases hanswer
        exact hno' r (mem_append_left later hr) _ hreport
    · obtain ⟨result, hdone⟩ := Machine.advance_mismatch values (by rw [hm]; exact hid) fuel
      rw [hcancel] at hdone
      cases hdone

theorem race_loser_is_cancelled_left : ∃ (x₀ x : Execution Int Fault) (history : _),
    Started twoRequests x₀ ∧ Run numbers x₀ history x ∧ x.Cancellable 1 1 ∧
    ∀ m, m.exec = x → ∀ used fuel, used.id = x.imageId →
      (Machine.advance used numbers fuel m).1 ≠ .waiting := by
  let j : JoinState := { left := 1, right := 2, join := .race, node := 0 }
  obtain ⟨x₀, history, m, h₀, h, -, hm⟩ := run_of_trial twoRequests 3 4
    (List.replicate 3 .turn ++ [.complete 2 2 (.complete (.ok 6)), .turn, .turn])
    (fun history m => decide ((m.exec.task 0).state = .joining j ∧
      winner numbers history 0 = some false ∧ (m.exec.task 0).cleaning = 0 ∧
      (m.exec.task 1).state = .waiting 1 1 ∧ m.exec.links 1 = some 0 ∧ m.exec.links 0 = none ∧
      cleanings (m.exec.stack 1) = 0 ∧ cleanings (m.exec.stack 0) = 0)) (by decide +kernel)
  obtain ⟨hst, hwin, hclean, hw, hlink, hroot, hs1, hs0⟩ := of_decide_eq_true hm
  have hlater : Run numbers x₀ ([] ++ history) m.exec := h
  obtain ⟨hout, -⟩ := race_loser_is_cancelled h₀ h hst rfl hwin hw visits_refl
    (fun k hk _ => by
      rcases visits_iff.mp hk with rfl | ⟨q, hq, hk⟩
      · exact hs1
      · obtain rfl := Option.some.inj (hlink.symm.trans hq)
        rcases visits_iff.mp hk with rfl | ⟨q, hq, -⟩
        · exact hs0
        · rw [hroot] at hq
          cases hq) hlater (by simp)
  obtain ⟨hcancel, -, -, hadvance⟩ := hout hclean
  exact ⟨x₀, m.exec, history, h₀, h, hcancel, hadvance⟩

/-- Inside a cleanup the loser is flagged, but the machine goes on waiting for it. -/
theorem raceInCleanup_waits_for_loser : ∃ (x₀ x : Execution Int Fault) (history : _) (j : _),
    Started raceInCleanup x₀ ∧ Run numbers x₀ history x ∧ (x.task 0).state = .joining j ∧
    j.join = .race ∧ winner numbers history 0 = some true ∧
    (x.task j.left).state.isDone = true ∧ (x.task j.right).state = .waiting 2 4 ∧
    (x.task j.right).cancelled = true ∧ x.stack j.right = [] ∧
    (Machine.advance raceInCleanup numbers 100 ⟨x, ()⟩).1 = .waiting := by
  let j : JoinState := { left := 1, right := 2, join := .race, node := 2 }
  obtain ⟨x₀, history, m, h₀, h, -, hm⟩ := run_of_trial raceInCleanup 3 4
    (List.replicate 6 .turn ++ [.complete 1 1 (.complete (.ok 5)), .turn, .turn])
    (fun history m => decide ((m.exec.task 0).state = .joining j ∧
      winner numbers history 0 = some true ∧ (m.exec.task j.left).state.isDone = true ∧
      (m.exec.task j.right).state = .waiting 2 4 ∧ (m.exec.task j.right).cancelled = true ∧
      (m.exec.stack j.right).length = 0) &&
      match (Machine.advance raceInCleanup numbers 100 m).1 with
      | .waiting => true
      | _ => false) (by decide +kernel)
  rw [Bool.and_eq_true, decide_eq_true_eq] at hm
  obtain ⟨⟨hst, hwin, hdone, hw, hflag, hs⟩, hadvance⟩ := hm
  refine ⟨x₀, m.exec, history, j, h₀, h, hst, rfl, hwin, hdone, hw, hflag,
    length_eq_zero_iff.mp hs, ?_⟩
  split at hadvance
  · next heq => exact heq
  · cases hadvance

end Xolotl.Core
