import Xolotl.Core.Counter

/-! Tickets and the events that answer them. Every request has a ticket above all
earlier ones, so an answer is recognised by its ticket alone although task slots
are reused. An answer that is not accepted leaves the machine as it was, but for
the sources that a refused continuation adds. -/

namespace Xolotl.Core

open Execution List

variable {S V E : Type}

/-! ## Waiting tasks -/

theorem Task.not_waiting_finished (t : Task V E) (next : Option Nat) (result : Except E V) :
    (t.finished next result).state.isWaiting = false := by
  cases result with
  | error e => rfl
  | ok value => cases next <;> rfl

variable {t t' : Task V E} {pushed : List (FrameKind V E)} {image : ProgramImage V E}

theorem Resumes.not_waiting {values : Values S V E} {outcome : Except E V} {frame : FrameKind V E}
    (h : Resumes image values t outcome frame t' pushed) : t'.state.isWaiting = false := by
  cases h with
  | finish | continuation => exact t.not_waiting_finished _ _
  | _ => rfl

theorem Delivers.not_waiting {node : Nat} {event : HostEvent V E}
    (h : Delivers image t node event t' pushed) : t'.state.isWaiting = false := by
  cases h with
  | complete => exact t.not_waiting_finished _ _
  | enter | continue_ => rfl

namespace Execution

variable {values : Values S V E} {x x' : Execution V E} {i k : Nat}

@[simp] theorem ticket_cancel (x : Execution V E) : x.cancel.ticket = x.ticket := by
  unfold cancel
  split_ifs <;> rfl

@[simp] theorem ticket_quota (x : Execution V E) : x.quota.ticket = x.ticket := by
  unfold quota
  split_ifs
  · exact x.ticket_cancel
  · rfl

@[simp] theorem ticket_sweep (x : Execution V E) (j : JoinState) :
    (x.sweep j).ticket = x.ticket := by
  unfold sweep
  dsimp only
  split_ifs <;> rfl

theorem Selects.ticket_le (h : Selects values x i x') : x.ticket ≤ x'.ticket := by
  cases h with
  | joining | failing | working => exact le_refl _
  | interrupted s hst hc hz hx => exact hx.ticket

theorem Charges.ticket_eq (h : Charges x x' i) : x'.ticket = x.ticket := by
  rw [h.eq]

variable {image : ProgramImage V E} {t : Machine.Turn V E} {a : Action V E}

theorem Moves.ticket_le (h : Moves image values x i t x') : x.ticket ≤ x'.ticket := by
  cases h.course with
  | closed s hst hs hl hx | goes hi hx ht hd => exact hx.ticket
  | forks hst hn hk hj hx₁ hx => exact hx₁.ticket.trans hx.ticket.ge
  | sweeps hst => exact (ticket_sweep x _).ge
  | settles hst ha hb hx => exact (ticket_sweep x _).ge.trans hx.ticket

variable {r : Report V E} {ticket node : Nat}

theorem Acts.ticket_le (h : Acts values x a r x') : x.ticket ≤ x'.ticket := by
  cases h with
  | cancel => exact (ticket_cancel x).ge
  | complete h =>
    cases h with
    | stale => exact le_refl _
    | delivered hr hst hd hro hx | refused hr hst hne he hx => exact hx.ticket
  | turn h =>
    cases h with
    | done => exact le_refl _
    | waiting | cancel => exact (ticket_quota x).ge
    | halted hr hs hx => exact (ticket_quota x).ge.trans (hs.ticket_le.trans hx.ticket)
    | moved hr hs hz hm =>
      calc x.ticket = x.quota.ticket := (ticket_quota x).symm
        _ ≤ _ := hs.ticket_le
        _ = _ := hz.ticket_eq.symm
        _ ≤ x'.ticket := hm.ticket_le

theorem Acts.emits {q : Request V} (h : Acts values x a (.turn (.request q)) x') :
    x.ticket < q.ticket ∧ x'.ticket = q.ticket := by
  cases h with
  | turn h =>
    cases h with
    | @moved i y z _ _ hr hs hz hm =>
      have hle : x.ticket ≤ z.ticket :=
        (ticket_quota x).ge.trans (hs.ticket_le.trans hz.ticket_eq.ge)
      cases hm with
      | requested hst hv hn hd hx hf ht => exact ⟨by omega, ht⟩

theorem Moves.live (h : Moves image values x i t x') : (x.task i).state.isFree = false := by
  cases h with
  | closed _ hst | resumed _ hst | stuck _ _ hst | dispatched hst | requested hst | refused _ hst
  | forked hst | starved _ hst | swept hst | joined _ _ hst | broken _ hst => rw [hst]; rfl

theorem Moves.waits (hf : Forest x) (h : Moves image values x i t x')
    (hw : (x'.task i).state = .waiting ticket node) : ∃ q instruction, t = .request q ∧
      q.ticket = ticket ∧ image.node node = .ok instruction := by
  have hi := lt_length_of_not_free h.live
  have hpu : ∀ {u frames}, Puts x x' i u frames → u.state.isWaiting = false → False := by
    intro u frames hx hu
    rw [hx.task_self hi] at hw
    rw [hw] at hu
    cases hu
  cases h with
  | closed s hst hs hl hx => exact (hpu hx rfl).elim
  | resumed s hst hs hl hr hx => exact (hpu hx hr.not_waiting).elim
  | stuck s s' hst hs hl hne hcl he hx => exact (hpu hx rfl).elim
  | dispatched hst hv hn hd hro hx =>
    cases hd with
    | leaf => exact (hpu hx (Task.not_waiting_finished ..)).elim
    | enter => exact (hpu hx rfl).elim
  | refused s hst hp hro he hne hx | starved s hst hn hk hfr hx => exact (hpu hx rfl).elim
  | requested hst hv hn hd hx =>
    rw [hx.task_self hi] at hw
    cases hd with
    | request =>
      cases hw
      exact ⟨_, _, rfl, rfl, hn⟩
  | forked hst hv hn hk hj hx₁ hx =>
    rw [hx.self] at hw
    cases hw
  | swept hst hdo =>
    rw [hf.task_sweep_self (by rw [hst]; rfl), hst] at hw
    cases hw
  | joined s s' hst ha hb hn hx =>
    have hse : (x'.task i).state.isWaiting = false := by
      rw [hx.self]
      exact Task.not_waiting_finished _ _ _
    rw [hw] at hse
    cases hse
  | broken s hst ha hb hn hx =>
    rw [hx.self] at hw
    cases hw

theorem Acts.waits (hf : Forest x)
    (h : Acts values x a r x') (hw : (x'.task k).state = .waiting ticket node) :
    (x.task k).state = .waiting ticket node ∨ ∃ q image instruction, a = .turn image ∧
      r = .turn (.request q) ∧ q.ticket = ticket ∧ image.node node = .ok instruction := by
  by_cases hk : (x.task k).state.isFree = false
  · cases h.fate hf hk with
    | kept c ht hc hs =>
      rw [ht] at hw
      exact .inl hw
    | gone hp hkj hst ht =>
      rw [ht] at hw
      cases hw
    | halted hk ht =>
      rw [hk, ht] at hw
      cases hw
    | interrupted s hst hz ht hs =>
      rw [ht] at hw
      cases hw
    | @moved _ y z _ t hsl hz hm hsp =>
      have hz' : Forest z := (hf.quota.selects hsl).charges hz
      obtain ⟨q, instruction, rfl, hq, hn⟩ := hm.waits hz' hw
      exact .inr ⟨q, _, instruction, rfl, rfl, hq, hn⟩
    | @answered _ live at_ event r _ hst h =>
      cases h with
      | stale => exact .inl hw
      | delivered hro hst' hd hrm hx =>
        have hse := hd.not_waiting
        rw [← hx.task_self (lt_length_of_not_free hk), hw] at hse
        cases hse
      | refused hro hst' hne he hx =>
        rw [hx.task_self (lt_length_of_not_free hk)] at hw
        exact .inl hw
  · obtain ⟨p, -, -, -, -, hr, -⟩ := (Lineage.acts hf h).born k (by simpa using hk)
      (by rw [hw]; rfl)
    rw [hr] at hw
    cases hw

end Execution

/-! ## The tickets of a run -/

namespace Record

variable (values : Values S V E) (r : Record S V E)

def emitted : Option (Request V) :=
  match r.report values with
  | .turn (.request q) => some q
  | _ => none

def accepted : Option (Nat × Nat) :=
  match r.action, r.report values with
  | .complete _ i ticket _, .complete (.ok ()) => some (i, ticket)
  | _, _ => none

variable {values r}

theorem report_of_emitted {q : Request V} (h : r.emitted values = some q) :
    r.report values = .turn (.request q) := by
  unfold emitted at h
  split at h
  · next hr => rw [hr, Option.some.inj h]
  · cases h

theorem call_of_accepted {i ticket : Nat} (h : r.accepted values = some (i, ticket)) :
    ∃ image event, r.action = .complete image i ticket event ∧
      r.report values = .complete (.ok ()) := by
  unfold accepted at h
  split at h
  · next ha hr =>
    cases h
    exact ⟨_, _, ha, hr⟩
  · cases h

end Record

namespace Run

variable {values : Values S V E} {x₀ x : Execution V E} {history : List (Record S V E)}
  (h : Run values x₀ history x)
include h

theorem emitted_le (h₀ : x₀.Forest) :
    ∀ q ∈ history.filterMap (Record.emitted values), q.ticket ≤ x.ticket := by
  induction h with
  | nil => simp
  | cons r hr he hok ih =>
    subst he
    have ha := r.acts values (hr.forest h₀)
    intro q hq
    rw [filterMap_cons] at hq
    split at hq
    · exact (ih q hq).trans ha.ticket_le
    · next q' hq' =>
      rcases mem_cons.mp hq with rfl | hq
      · rw [Record.report_of_emitted hq'] at ha
        exact ha.emits.2.ge
      · exact (ih q hq).trans ha.ticket_le

theorem tickets_increase (h₀ : x₀.Forest) :
    (history.filterMap (Record.emitted values)).Pairwise fun later earlier =>
      earlier.ticket < later.ticket := by
  induction h with
  | nil => exact List.Pairwise.nil
  | cons r hr hex hok ih =>
    subst hex
    rw [filterMap_cons]
    split
    · exact ih
    · next q hq =>
      have ha := r.acts values (hr.forest h₀)
      rw [Record.report_of_emitted hq] at ha
      refine List.Pairwise.cons (fun earlier he => ?_) ih
      exact (hr.emitted_le h₀ earlier he).trans_lt ha.emits.1

variable {image : ProgramImage V E}

theorem waiting_le (h₀ : Started image x₀) {k ticket node : Nat}
    (hw : (x.task k).state = .waiting ticket node) : ticket ≤ x.ticket := by
  induction h with
  | nil =>
    obtain ⟨tasks, frames, bindings, limits, input, context, h₀⟩ := h₀
    rw [task_new h₀] at hw
    split at hw <;> cases hw
  | cons r hr he hok ih =>
    subst he
    have hf := hr.forest (.started h₀)
    have ha := r.acts values hf
    rcases ha.waits hf hw with hold | ⟨q, used, instruction, -, hq, rfl, -⟩
    · exact (ih hold).trans ha.ticket_le
    · rw [hq] at ha
      exact ha.emits.2.ge

theorem accepted_gone (h₀ : Started image x₀) {i ticket : Nat}
    (ha : (i, ticket) ∈ history.filterMap (Record.accepted values)) :
    ticket ≤ x.ticket ∧ ∀ node, (x.task i).state ≠ .waiting ticket node := by
  induction h with
  | nil => cases ha
  | cons r hru he hok ih =>
    subst he
    have hf := hru.forest (.started h₀)
    have hac := r.acts values hf
    rcases mem_filterMap.mp ha with ⟨r', hr', had⟩
    rcases mem_cons.mp hr' with rfl | hr'
    · -- the answer itself: the task that waited goes on
      obtain ⟨used, event, ha, hr⟩ := Record.call_of_accepted had
      rw [ha, hr] at hac
      cases hac with
      | complete hdo =>
        cases hdo with
        | delivered hrt hst hd hro hx =>
          have hi := lt_length_of_not_free (x := r'.before.exec) (i := i) (by rw [hst]; rfl)
          refine ⟨(hru.waiting_le h₀ hst).trans hx.ticket, fun node hw => ?_⟩
          have hs := hd.not_waiting
          rw [← hx.task_self hi, hw] at hs
          cases hs
    · obtain ⟨hle, hg⟩ := ih (mem_filterMap.mpr ⟨r', hr', had⟩)
      refine ⟨hle.trans hac.ticket_le, fun node hw => ?_⟩
      rcases hac.waits hf hw with hold | ⟨q, used, instruction, -, hq, ht, -⟩
      · exact hg node hold
      · -- a new request has a ticket above the answered one
        rw [hq] at hac
        have hfr := hac.emits.1
        omega

theorem accepted_once (h₀ : Started image x₀) :
    (history.filterMap (Record.accepted values)).Nodup := by
  induction h with
  | nil => exact nodup_nil
  | cons r hru he hok ih =>
    subst he
    rw [filterMap_cons]
    split
    · exact ih
    · next answered han =>
      refine nodup_cons.mpr ⟨fun hm => ?_, ih⟩
      obtain ⟨used, event, ha, hr⟩ := Record.call_of_accepted han
      have hac := r.acts values (hru.forest (.started h₀))
      rw [ha, hr] at hac
      cases hac with
      | complete hdo =>
        cases hdo with
        | delivered hro hst hd hrm hx => exact (hru.accepted_gone h₀ hm).2 _ hst

end Run

/-! ## Rejected answers -/

namespace Machine

open TaskCell Simulation

variable (image : ProgramImage V E) (values : Values S V E) {m : Machine S V E} {i ticket : Nat}

theorem complete_cases (m : Machine S V E) (i ticket : Nat) (event : HostEvent V E) :
    (image.id ≠ m.exec.imageId ∧
      complete image values i ticket event m = (.error .imageMismatch, m)) ∨
    (image.id = m.exec.imageId ∧ m.exec.isPending i ticket = false ∧
      complete image values i ticket event m = (.error .staleEvent, m)) ∨
    ∃ node, image.id = m.exec.imageId ∧ (m.exec.task 0).state.terminalResult = none ∧
      (m.exec.task i).state = .waiting ticket node ∧
      complete image values i ticket event m = onTask i (deliver image values node event) m := by
  unfold complete getExec isPending
  simp only [bind, StateT.bind]
  by_cases hid : image.id = m.exec.imageId
  · refine .inr ?_
    rw [if_neg (not_not.mpr hid)]
    cases hr : (m.exec.task 0).state.terminalResult with
    | some o => exact .inl ⟨hid, rfl, rfl⟩
    | none =>
      cases hst : (m.exec.task i).state with
      | waiting live node =>
        dsimp only
        by_cases hl : live = ticket
        · rw [if_pos hl]
          exact .inr ⟨node, hid, rfl, by rw [hl], rfl⟩
        · rw [if_neg hl]
          exact .inl ⟨hid, by simp [hl], rfl⟩
      | _ => exact .inl ⟨hid, rfl, rfl⟩
  · rw [if_pos hid]
    exact .inl ⟨hid, rfl⟩

variable {e : Fault}

theorem complete_enter (hx : Forest m.exec) (context : Nat)
    (h : (complete image values i ticket (.enter context) m).1 = .error e) :
    (complete image values i ticket (.enter context) m).2 = m := by
  rcases complete_cases image values m i ticket (.enter context) with
    ⟨-, hc⟩ | ⟨-, -, hc⟩ | ⟨node, -, -, hst, hc⟩
  · rw [hc]
  · rw [hc]
  rw [hc] at h ⊢
  have hl : (m.exec.task i).state.isFree = false := by rw [hst]; rfl
  have hi := lt_length_of_not_free hl
  obtain ⟨v, hv⟩ := hx.input i hl
  have hf := run_deliver_enter image values ({ m with index := i } : Focus S V E) node context
  have hvi := run_deliver_enter image values (m.view i) node context
  have ha := (agrees_deliver image values hi node (.enter context) _ _ (views_view m hi)).1
  replace h : ((deliver image values node (.enter context)).run
    ({ m with index := i } : Focus S V E)).1 = .error e := h
  show ((deliver image values node (.enter context)).run
    ({ m with index := i } : Focus S V E)).2.toMachine = m
  rw [h] at ha
  cases hn : image.node node with
  | error e' =>
    rw [hn] at hf
    rw [hf]
  | ok instruction =>
    rw [hn] at hf hvi
    dsimp only at hf hvi
    cases hk : instruction.kind with
    | scope index body =>
      rw [hk] at hf hvi
      dsimp only at hf hvi
      -- on its own the task is refused only for want of two frames
      rw [hvi, Local.run_enterScope _ hv] at ha
      split at ha
      · cases ha
      · next hr =>
        have hch := (((mirrors_views hi).follows_checkFrames 2).simE _ _ (views_view m hi)).1
        rw [show ((checkFrames 2 : Step (Local S V E) Unit).run (m.view i)).1 =
          .error .frames from if_neg hr] at hch
        rw [hf, run_enterScope_refused _ hch]
    | _ =>
      rw [hk] at hf
      rw [hf]

theorem push_refused {y : Focus S V E} {kind : FrameKind V E}
    (h : TaskCell.push kind y = .error e) : e = .frames := by
  replace h : (y.exec.frames.push y.index kind y.exec.limits.framesPerTask).map _ = .error e := h
  by_cases hf : y.exec.frames.Fits y.index 1 y.exec.limits.framesPerTask
  · obtain ⟨frames, hp, -⟩ := Frames.push_ok kind hf
    rw [hp] at h
    cases h
  · rw [Frames.push_error kind hf] at h
    cases h
    rfl

theorem deliver_continue_refused {y : Focus S V E} {v : V} {node entry : Nat} {input : V}
    (hv : (y.exec.task y.index).input = some v)
    (h : ((deliver image values node (.continue_ entry input)).run y).1 = .error e) :
    ((deliver image values node (.continue_ entry input)).run y).2 = y ∨
    (e = .invalidNode ∨ e = .frames) ∧ ∃ s,
    ((deliver image values node (.continue_ entry input)).run y).2.exec =
      y.exec.setTask y.index { y.exec.task y.index with
        input := some (values.influence v (values.retainControl input y.host).1 s).1 } := by
  rw [run_deliver_continue image values y fun _ => hv] at h ⊢
  cases hn : image.node node with
  | error e' => exact .inl rfl
  | ok instruction =>
    rw [hn] at h
    dsimp only at h ⊢
    cases hk : instruction.kind with
    | request index =>
      rw [hk] at h
      generalize hy' : (TaskCell.setTask _ _ : Focus S V E) = y' at h
      have he : ∃ s, y'.exec = y.exec.setTask y.index { y.exec.task y.index with
          input := some (values.influence v (values.retainControl input y.host).1 s).1 } :=
        ⟨_, by rw [← hy']; rfl⟩
      refine .inr ?_
      cases hn' : image.node entry with
      | error e' =>
        rw [hn'] at h
        cases h
        exact ⟨.inl (ProgramImage.node_error hn'), he⟩
      | ok target =>
        rw [hn'] at h
        cases hp : TaskCell.push (.continuation node entry) y' with
        | error e' =>
          rw [hp] at h
          cases h
          exact ⟨.inr (push_refused hp), he⟩
        | ok y'' =>
          rw [hp] at h
          dsimp only at h
          cases hin : (TaskCell.task y'').input with
          | none | some _ =>
            rw [hin] at h
            cases h
    | _ => exact .inl rfl

theorem complete_result (hx : Forest m.exec) (result : Except E V)
    (h : (complete image values i ticket (.complete result) m).1 = .error e) :
    e = .invalidNode ∨ (complete image values i ticket (.complete result) m).2 = m := by
  rcases complete_cases image values m i ticket (.complete result) with
    ⟨-, hc⟩ | ⟨-, -, hc⟩ | ⟨node, -, -, hst, hc⟩
  · exact .inr (by rw [hc])
  · exact .inr (by rw [hc])
  refine .inl ?_
  rw [hc] at h
  have hl : (m.exec.task i).state.isFree = false := by rw [hst]; rfl
  have hi := lt_length_of_not_free hl
  obtain ⟨v, hv⟩ := hx.input i hl
  have ha := (agrees_deliver image values hi node (.complete result) _ _ (views_view m hi)).1
  replace h : ((deliver image values node (.complete result)).run
    ({ m with index := i } : Focus S V E)).1 = .error e := h
  rw [h, Local.run_deliver_complete image values _ hv, Local.run_finish] at ha
  cases hn : image.node node with
  | error e' =>
    rw [hn] at ha
    cases ha
    exact ProgramImage.node_error hn
  | ok instruction =>
    rw [hn] at ha
    cases ha

theorem isPending_setTask {x : Execution V E} {t : Task V E} (hi : i < x.tasks.length)
    (ht : t.state = (x.task i).state) :
    (x.setTask i t).isPending i ticket = x.isPending i ticket := by
  have hst : ∀ k, ((x.setTask i t).task k).state = (x.task k).state := by
    intro k
    by_cases hk : k = i
    · rw [hk, x.task_setTask_self hi, ht]
    · rw [x.task_setTask_other hk]
  unfold isPending
  rw [hst, hst]

theorem complete_continue (hx : Forest m.exec) (entry : Nat) (input : V)
    (h : (complete image values i ticket (.continue_ entry input) m).1 = .error e) :
    (complete image values i ticket (.continue_ entry input) m).2 = m ∨
    (e = .invalidNode ∨ e = .frames) ∧ ∃ v s, (m.exec.task i).input = some v ∧
      (complete image values i ticket (.continue_ entry input) m).2.exec =
        m.exec.setTask i { m.exec.task i with
          input := some (values.influence v (values.retainControl input m.host).1 s).1 } := by
  rcases complete_cases image values m i ticket (.continue_ entry input)
    with ⟨-, hc⟩ | ⟨-, -, hc⟩ | ⟨node, -, -, hst, hc⟩
  · exact .inl (by rw [hc])
  · exact .inl (by rw [hc])
  rw [hc] at h ⊢
  have hl : (m.exec.task i).state.isFree = false := by rw [hst]; rfl
  obtain ⟨v, hv⟩ := hx.input i hl
  have hr := deliver_continue_refused image values (y := { m with index := i }) hv h
  rcases hr with hs | ⟨he, s, hex⟩
  · refine .inl ?_
    show ((deliver image values node (.continue_ entry input)).run
      ({ m with index := i } : Focus S V E)).2.toMachine = m
    rw [hs]
  · exact .inr ⟨he, v, s, hv, hex⟩

structure Rejects (image : ProgramImage V E) (values : Values S V E) (m : Machine S V E)
    (i ticket : Nat) (event : HostEvent V E) : Prop where
  mismatch : image.id ≠ m.exec.imageId →
    (complete image values i ticket event m).1 = .error .imageMismatch
  not_pending : image.id = m.exec.imageId → m.exec.isPending i ticket = false →
    (complete image values i ticket event m).1 = .error .staleEvent
  enter_request : image.id = m.exec.imageId → ∀ node instruction index context,
    (m.exec.task i).state = .waiting ticket node → image.node node = .ok instruction →
    instruction.kind = .request index → event = .enter context →
    (complete image values i ticket event m).1 = .error .staleEvent
  continue_scope : image.id = m.exec.imageId → ∀ node instruction index body entry input,
    (m.exec.task i).state = .waiting ticket node → image.node node = .ok instruction →
    instruction.kind = .scope index body → event = .continue_ entry input →
    (complete image values i ticket event m).1 = .error .staleEvent
  unchanged : (complete image values i ticket event m).1 = .error .staleEvent ∨
    (complete image values i ticket event m).1 = .error .imageMismatch →
    (complete image values i ticket event m).2 = m
  enter_frames : ∀ context, event = .enter context →
    (complete image values i ticket event m).1 = .error .frames →
    (complete image values i ticket event m).2 = m
  continue_pending : ∀ entry input e, event = .continue_ entry input →
    (complete image values i ticket event m).1 = .error e → e ≠ .staleEvent → e ≠ .imageMismatch →
    (complete image values i ticket event m).2.exec.isPending i ticket = true ∧
    ((complete image values i ticket event m).2 = m ∨ ∃ v s, (m.exec.task i).input = some v ∧
      (complete image values i ticket event m).2.exec = m.exec.setTask i { m.exec.task i with
        input := some (values.influence v (values.retainControl input m.host).1 s).1 })

theorem isPending_of_complete {event : HostEvent V E}
    (h : (complete image values i ticket event m).1 = .error e) (hs : e ≠ .staleEvent)
    (hm : e ≠ .imageMismatch) :
    i < m.exec.tasks.length ∧ m.exec.isPending i ticket = true := by
  rcases complete_cases image values m i ticket event with
    ⟨-, hc⟩ | ⟨-, -, hc⟩ | ⟨node, -, hr, hst, -⟩
  · rw [hc] at h
    cases h
    exact absurd rfl hm
  · rw [hc] at h
    cases h
    exact absurd rfl hs
  · refine ⟨lt_length_of_not_free (by rw [hst]; rfl), ?_⟩
    unfold isPending
    rw [hr, hst]
    simp

theorem rejects (hx : Forest m.exec) (i ticket : Nat) (event : HostEvent V E) :
    Rejects image values m i ticket event := by
  have hca := complete_cases image values m i ticket event
  refine ⟨?_, ?_, ?_, ?_, ?_, ?_, ?_⟩
  · intro hid
    rcases hca with ⟨-, hc⟩ | ⟨hid', -⟩ | ⟨-, hid', -⟩
    · rw [hc]
    · exact absurd hid' hid
    · exact absurd hid' hid
  · intro hid hp
    rcases hca with ⟨hid', -⟩ | ⟨-, -, hc⟩ | ⟨node, -, hr, hst, -⟩
    · exact absurd hid hid'
    · rw [hc]
    · rw [isPending, hr, hst] at hp
      simp at hp
  · rintro hid node instruction index context hst hn hk rfl
    rcases hca with ⟨hid', -⟩ | ⟨-, -, hc⟩ | ⟨node', -, -, hst', hc⟩
    · exact absurd hid hid'
    · rw [hc]
    · rw [hst] at hst'
      cases hst'
      rw [hc]
      show ((deliver image values node (.enter context)).run
        ({ m with index := i } : Focus S V E)).1 = _
      rw [run_deliver_enter, hn]
      dsimp only
      rw [hk]
  · rintro hid node instruction index body entry input hst hn hk rfl
    rcases hca with ⟨hid', -⟩ | ⟨-, -, hc⟩ | ⟨node', -, -, hst', hc⟩
    · exact absurd hid hid'
    · rw [hc]
    · rw [hst] at hst'
      cases hst'
      rw [hc]
      have hev := run_eventControl_continue image values ({ m with index := i } : Focus S V E)
        node entry input
      rw [hn] at hev
      dsimp only at hev
      rw [hk] at hev
      show ((deliver image values node (.continue_ entry input)).run
        ({ m with index := i } : Focus S V E)).1 = _
      unfold deliver
      rw [run_bind_error hev]
  · intro h
    cases event with
    | complete result =>
      rcases h with h | h
      · exact (complete_result image values hx result h).resolve_left nofun
      · exact (complete_result image values hx result h).resolve_left nofun
    | enter context =>
      rcases h with h | h
      · exact complete_enter image values hx context h
      · exact complete_enter image values hx context h
    | continue_ entry input =>
      rcases h with h | h
      · exact (complete_continue image values hx entry input h).resolve_right fun h => by
          rcases h.1 with h | h <;> cases h
      · exact (complete_continue image values hx entry input h).resolve_right fun h => by
          rcases h.1 with h | h <;> cases h
  · rintro context rfl h
    exact complete_enter image values hx context h
  · rintro entry input e rfl h hs hm
    obtain ⟨hi, hp⟩ := isPending_of_complete image values h hs hm
    rcases complete_continue image values hx entry input h with hsa | ⟨-, v, s, hv, he⟩
    · rw [hsa]
      exact ⟨hp, .inl rfl⟩
    · refine ⟨?_, .inr ⟨v, s, hv, he⟩⟩
      rw [he]
      refine (isPending_setTask hi ?_).trans hp
      rfl

end Machine

/-- Tickets grow with every request and are answered at most once, and an answer that
is not accepted changes nothing but the sources a refused continuation adds. -/
theorem events_accepted_once {image₀ : ProgramImage V E} {values : Values S V E}
    {x₀ x : Execution V E} {history : List (Record S V E)} (h₀ : Started image₀ x₀)
    (h : Run values x₀ history x) :
    ((history.filterMap (Record.emitted values)).Pairwise fun later earlier =>
      earlier.ticket < later.ticket) ∧
    (history.filterMap (Record.accepted values)).Nodup ∧
    ∀ (image : ProgramImage V E) (m : Machine S V E) (i ticket : Nat) (event : HostEvent V E),
      m.exec = x → m.Rejects image values i ticket event := by
  refine ⟨h.tickets_increase (.started h₀), h.accepted_once h₀, ?_⟩
  rintro image m i ticket event rfl
  exact m.rejects image values (h.forest (.started h₀)) i ticket event

def asksTwice : ProgramImage Int Fault where
  nodes := [{ kind := .request 0, next := some 1 }, { kind := .request 1 }]
  imports := 2

theorem events_accepted_once_asksTwice : ∃ (x₀ : _) (history : _) (m : Machine Unit Int Fault),
    Started asksTwice x₀ ∧ Run numbers x₀ history m.exec ∧
    (history.filterMap (Record.emitted numbers)).map Request.ticket = [2, 1] ∧
    history.filterMap (Record.accepted numbers) = [(0, 1)] ∧
    (history.filterMap (Record.accepted numbers)).Nodup ∧
    ∀ event, m.Rejects asksTwice numbers 0 1 event := by
  obtain ⟨x₀, history, m, hstart, hrun, -, h⟩ := run_of_trial asksTwice 1 4
    [.turn, .complete 0 1 (.complete (.ok 5)), .complete 0 1 (.complete (.ok 6)), .turn]
    (fun history _ => decide
      ((history.filterMap (Record.emitted numbers)).map Request.ticket = [2, 1] ∧
        history.filterMap (Record.accepted numbers) = [(0, 1)])) (by decide +kernel)
  obtain ⟨hemitted, haccepted⟩ := of_decide_eq_true h
  obtain ⟨-, honce, hrejects⟩ := events_accepted_once hstart hrun
  exact ⟨x₀, history, m, hstart, hrun, hemitted, haccepted, honce,
    fun event => hrejects asksTwice m 0 1 event rfl⟩

end Xolotl.Core
