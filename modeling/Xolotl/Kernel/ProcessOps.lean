import Xolotl.Kernel.ProcessReap

/-! The operations of the process table one by one: each keeps the tree consistent, and
none but a reservation or a settlement touches an account. -/

namespace Xolotl.Kernel

open DenseIndex

/-! ## Scopes -/

namespace Scope

/-- A lifecycle transition: a committed scope keeps its status, and no transition
commits or charges it. -/
structure Quiet (s s' : Scope) : Prop where
  process : s'.process = s.process
  budget : s'.budget = s.budget
  finalized : s'.finalized = s.finalized
  committed : s.finalized = true → s'.status = s.status ∧ s'.finalizerActive = s.finalizerActive

theorem Quiet.refl (s : Scope) : Quiet s s := ⟨rfl, rfl, rfl, fun _ => ⟨rfl, rfl⟩⟩

variable {s : Scope}

theorem Quiet.of_open {s' : Scope} (hp : s'.process = s.process)
    (hb : s'.budget = s.budget) (hf : s'.finalized = s.finalized)
    (ho : s.finalized = false) : Quiet s s' :=
  ⟨hp, hb, hf, fun h => by rw [ho] at h; cases h⟩

theorem not_finalized_of_accepts (h : s.acceptsChildren = true) : s.finalized = false := by
  simp only [acceptsChildren, Bool.and_eq_true, Bool.not_eq_true'] at h
  exact h.2

theorem quiet_start (s : Scope) : Quiet s s.start.2 := by
  unfold start
  split
  · exact .refl s
  · next h =>
    simp only [Bool.or_eq_true, not_or, Bool.not_eq_true', Bool.not_eq_false] at h
    exact .of_open rfl rfl rfl (not_finalized_of_accepts h.2)

theorem quiet_finishBody (s : Scope) (status : ProcessStatus) : Quiet s (s.finishBody status).2 ∧
    ((s.finishBody status).1 = true → s.finalized = false) := by
  unfold finishBody
  cases hf : s.finalized with
  | true => exact ⟨.refl s, nofun⟩
  | false =>
    cases hs : status.isTerminal with
    | true => exact ⟨.of_open rfl rfl rfl hf, fun _ => rfl⟩
    | false => exact ⟨.refl s, fun _ => rfl⟩

theorem quiet_beginFinalizing {scope : Scope} {status : ProcessStatus}
    (h : s.beginFinalizing status = (.started, scope)) : Quiet s scope ∧ s.finalized = false := by
  unfold beginFinalizing at h
  cases hs : status.isTerminal with
  | false => simp [hs] at h
  | true =>
    cases hf : s.finalized with
    | true => simp [hs, hf] at h
    | false =>
      cases ha : s.finalizerActive with
      | true => simp [hs, hf, ha] at h
      | false =>
        simp only [hs, hf, ha, Bool.not_true, Bool.false_eq_true, if_false, Prod.mk.injEq,
          true_and] at h
        subst h
        exact ⟨.of_open rfl rfl rfl hf, rfl⟩

theorem quiet_markTerminalStatus (hs : s.finalized = true → s.status.isTerminal = true)
    (requested : ProcessStatus) : Quiet s (s.markTerminalStatus requested).2 := by
  unfold markTerminalStatus
  split
  · next h =>
    simp only [Bool.and_eq_true] at h
    refine .of_open rfl rfl rfl ?_
    by_contra hf
    rw [hs (Bool.not_eq_false _ ▸ hf)] at h
    exact nomatch h.1
  · exact .refl s

theorem quiet_cancel (hs : s.finalized = true → s.status.isTerminal = true) :
    Quiet s s.cancel.2 := by
  unfold cancel
  split
  · exact .refl s
  · next h =>
    simp only [Bool.or_eq_true, not_or] at h
    refine .of_open rfl rfl rfl ?_
    by_contra hf
    exact h.1 (hs (Bool.not_eq_false _ ▸ hf))

theorem quiet_requestTreeCleanup (s : Scope) : Quiet s s.requestTreeCleanup.2 ∧
    (s.finalized = true → s.requestTreeCleanup.1 = false) := by
  unfold requestTreeCleanup
  dsimp only
  cases hf : s.finalized with
  | true => exact ⟨⟨rfl, rfl, hf.symm, fun _ => ⟨rfl, rfl⟩⟩, fun _ => rfl⟩
  | false =>
    refine ⟨?_, nofun⟩
    cases ht : s.terminal.isNone with
    | true | false => exact .of_open rfl rfl hf.symm hf

theorem quiet_abandon (s : Scope) : Quiet s s.abandon.2 := by
  unfold abandon
  split
  · exact .refl s
  · next hf =>
    rw [Bool.not_eq_true] at hf
    split
    · exact .of_open rfl rfl rfl hf
    · exact s.quiet_requestTreeCleanup.1

end Scope
namespace ProcessTable

open ProcessEntry

variable {t t' t'' : ProcessTable} {id : Nat}

/-! ## Accounts -/

/-- No account changes, and only entries without calls in flight may leave. -/
structure Evolves (t t' : ProcessTable) : Prop where
  kept : ∀ id e, t.get id = some e →
    (∃ e', t'.get id = some e' ∧ e'.parent = e.parent ∧ e'.scope.budget = e.scope.budget) ∨
    (t'.get id = none ∧ e.scope.budget.inflightOps = 0 ∧ e.parent ≠ none)
  old : ∀ id e', t'.get id = some e' → ∃ e, t.get id = some e

variable {e e' : ProcessEntry} {scope : Scope} {finalization : Bool}

theorem core_links (h : e'.core = e.core) :
    e'.parent = e.parent ∧ e'.scope.budget = e.scope.budget := by
  have hp : e'.core.parent = e.core.parent := by rw [h]
  have hs : e'.core.scope = e.core.scope := by rw [h]
  exact ⟨hp, congrArg Scope.budget hs⟩

theorem core_some {o o' : Option ProcessEntry} (h : o'.map core = o.map core) (he : o = some e) :
    ∃ e', o' = some e' ∧ e'.parent = e.parent ∧ e'.scope.budget = e.scope.budget := by
  rw [he] at h
  obtain ⟨e', he', heq⟩ := Option.map_eq_some_iff.mp h
  exact ⟨e', he', core_links heq⟩

theorem Evolves.of_core (h : ∀ k, (t'.get k).map core = (t.get k).map core) : Evolves t t' := by
  refine ⟨fun k e he => .inl (core_some (h k) he), fun k e' he' => ?_⟩
  obtain ⟨e, he, -⟩ := core_some (h k).symm he'
  exact ⟨e, he⟩

theorem Evolves.refl (t : ProcessTable) : Evolves t t := .of_core fun _ => rfl

theorem Evolves.trans (h : Evolves t t') (h' : Evolves t' t'') : Evolves t t'' := by
  refine ⟨fun k e he => ?_, fun k e'' he'' => ?_⟩
  · rcases h.kept k e he with ⟨e', he', hp, hb⟩ | ⟨hn, hzero, hp⟩
    · rcases h'.kept k e' he' with ⟨e'', he'', hp', hb'⟩ | ⟨hn, hzero, hp'⟩
      · exact .inl ⟨e'', he'', hp'.trans hp, hb'.trans hb⟩
      · rw [hb] at hzero
        rw [hp] at hp'
        exact .inr ⟨hn, hzero, hp'⟩
    · refine .inr ⟨?_, hzero, hp⟩
      cases hk : t''.get k with
      | none => rfl
      | some e'' =>
        obtain ⟨e', he'⟩ := h'.old k e'' hk
        rw [hn] at he'
        cases he'
  · obtain ⟨e', he'⟩ := h'.old k e'' he''
    exact h.old k e' he'

theorem Reaped.evolves (h : Reaped t t' id) : Evolves t t' := by
  refine ⟨fun k e he => ?_, fun k e' he' => ?_⟩
  · by_cases hk : k = id
    · subst hk
      obtain ⟨⟨e', he', hr⟩, -⟩ := canReap_iff.mp h.eligible
      cases he.symm.trans he'
      simp only [reapable, Bool.and_eq_true, beq_iff_eq] at hr
      exact .inr ⟨h.gone, hr.1.2, Option.isSome_iff_ne_none.mp hr.2⟩
    · exact .inl (core_some (h.core k hk) he)
  · have hk : k ≠ id := by
      rintro rfl
      rw [h.gone] at he'
      cases he'
    obtain ⟨e, he, -⟩ := core_some (h.core k hk).symm he'
    exact ⟨e, he⟩

theorem Reaps.evolves {l : List Nat} (h : Reaps t l t') : Evolves t t' := by
  induction h with
  | done hd => exact .of_core hd.core
  | remove hr _ ih => exact hr.evolves.trans ih

structure Good (t t' : ProcessTable) : Prop where
  sound : Sound t' none
  evolves : Evolves t t'

theorem Good.refl (h : Sound t none) : Good t t := ⟨h, .refl t⟩

theorem Good.trans (h : Good t t') (h' : Good t' t'') : Good t t'' :=
  ⟨h'.sound, h.evolves.trans h'.evolves⟩

theorem good_foldl {α : Type} {step : ProcessTable → α → ProcessTable}
    (hs : ∀ t a, Sound t none → Good t (step t a)) (l : List α) (h : Sound t none) :
    Good t (l.foldl step t) := by
  induction l generalizing t with
  | nil => exact .refl h
  | cons a l ih => exact (hs t a h).trans (ih (hs t a h).sound)

/-! ## Changes of one entry -/

section Entry

variable {f : ProcessEntry → ProcessEntry} (h : Sound t none)
  (hke : ∀ e, t.get id = some e → Keeps e (f e))
  (hbu : ∀ e, t.get id = some e → (f e).scope.budget = e.scope.budget)

include hke hbu in
theorem evolves_modify : Evolves t (t.modify id f) := by
  refine ⟨fun k e he => .inl ⟨_, get_modify_of_some he, ?_⟩, fun k e' he' => ?_⟩
  · split
    · next hk =>
      subst hk
      exact ⟨(hke e he).parent, hbu e he⟩
    · exact ⟨rfl, rfl⟩
  · obtain ⟨e, he, -⟩ := get_modify_some he'
    exact ⟨e, he⟩

include h

include hke hbu in
theorem good_modify (hq : ∀ e, t.get id = some e → (f e).reapable = true → e.reapable = true) :
    Good t (t.modify id f) :=
  ⟨h.modify_quiet hke hq, evolves_modify hke hbu⟩

include hke hbu in
theorem good_modify_queue : Good t ((t.modify id f).queueReapIfEligible id) :=
  ⟨(h.modify hke).queue, (evolves_modify hke hbu).trans (.of_core (alike_queue _ id).core)⟩

theorem good_modify_at (he : t.get id = some e) (hk : Keeps e (f e))
    (hb : (f e).scope.budget = e.scope.budget)
    (hq : (f e).reapable = true → e.reapable = true) : Good t (t.modify id f) := by
  have hs : ∀ e', t.get id = some e' → e = e' := fun e' he' => Option.some.inj (he.symm.trans he')
  refine good_modify h (fun e' he' => ?_) (fun e' he' => ?_) fun e' he' => ?_
  · cases hs e' he'
    exact hk
  · cases hs e' he'
    exact hb
  · cases hs e' he'
    exact hq

theorem good_modify_open (he : t.get id = some e)
    (ho : e.scope.finalized = false) (ho' : (f e).scope.finalized = false)
    (hst : Stays e (f e)) (hqu : (f e).reapQueued = e.reapQueued)
    (hb : (f e).scope.budget = e.scope.budget) : Good t (t.modify id f) := by
  have hn : (f e).scope.finalized ≠ true := by simp [ho']
  refine good_modify_at h he ⟨hst, hqu, fun hs => ⟨fun hq => ?_, ?_, ?_⟩⟩ hb fun hr => ?_
  · rw [hqu] at hq
    have hfi := hs.queued hq
    rw [ho] at hfi
    cases hfi
  · exact fun hf => absurd hf hn
  · exact fun hf => absurd hf hn
  · simp only [reapable, ho'] at hr
    cases hr

end Entry

theorem keeps_counts (e : ProcessEntry) (cleanupPin managedCaptures : Nat) :
    Keeps e { e with cleanupPin, managedCaptures } :=
  ⟨⟨rfl, rfl, rfl⟩, rfl, fun hs => ⟨hs.queued, hs.terminal, hs.released⟩⟩

theorem keeps_scope (hq : Scope.Quiet e.scope scope)
    (hf : e.scope.finalized = true → finalization = false) :
    Keeps e { e with scope, finalization := e.finalization || finalization } := by
  refine ⟨⟨hq.process, rfl, rfl⟩, rfl, fun hs => ⟨?_, ?_, ?_⟩⟩
  · exact fun hr => hq.finalized.trans (hs.queued hr)
  · intro hfi
    have hfi' : e.scope.finalized = true := hq.finalized.symm.trans hfi
    exact (congrArg ProcessStatus.isTerminal (hq.committed hfi').1).trans (hs.terminal hfi')
  · intro hfi
    have hfi' : e.scope.finalized = true := hq.finalized.symm.trans hfi
    obtain ⟨hst, hon, hp, hre, hfn⟩ := hs.released hfi'
    refine ⟨hst, hon, hp, hre, ?_⟩
    show (e.finalization || finalization) = false
    rw [hfn, hf hfi']
    rfl

theorem reapable_scope (hq : Scope.Quiet e.scope scope)
    (hr : ({ e with scope, finalization } : ProcessEntry).reapable = true) : e.reapable = true := by
  have hf : e.scope.finalized = true := by
    simp only [reapable, Bool.and_eq_true] at hr
    rw [← hq.finalized]
    tauto
  obtain ⟨hs, ha⟩ := hq.committed hf
  rw [← hr, reapable, reapable, hs, ha, hq.finalized, hq.budget]

variable (h : Sound t none)
include h

theorem good_updateScope (he : t.get id = some e) (hq : Scope.Quiet e.scope scope)
    (hf : e.scope.finalized = true → finalization = false) :
    Good t (t.updateScope id finalization scope) :=
  good_modify_at h he (keeps_scope hq hf) hq.budget (reapable_scope hq)

/-! ## Lifecycle -/

variable (id : Nat) (status : ProcessStatus)

theorem good_beginFinalizing : Good t (t.beginFinalizing id status).2 := by
  unfold beginFinalizing
  cases he : t.get id with
  | none => exact .refl h
  | some e =>
    dsimp only
    rcases hb : e.scope.beginFinalizing status with ⟨start, scope⟩
    cases start with
    | started =>
      obtain ⟨hq, ho⟩ := Scope.quiet_beginFinalizing hb
      exact good_updateScope h he hq fun hf => by rw [ho] at hf; cases hf
    | alreadyFinalizing | alreadyTerminal | invalidStatus => exact .refl h

theorem good_markTerminalStatus : Good t (t.markTerminalStatus id status).2 := by
  unfold markTerminalStatus
  cases he : t.get id with
  | none => exact .refl h
  | some e =>
    have hq := Scope.quiet_markTerminalStatus (h.settled id e he).terminal status
    exact good_updateScope h he hq fun _ => rfl

theorem good_cancelIfNonTerminal : Good t (t.cancelIfNonTerminal id).2 := by
  unfold cancelIfNonTerminal
  cases he : t.get id with
  | none => exact .refl h
  | some e =>
    dsimp only
    have hq := Scope.quiet_cancel (h.settled id e he).terminal
    rcases hc : e.scope.cancel with ⟨done, scope⟩
    rw [hc] at hq
    cases done with
    | false => exact .refl h
    | true => exact good_updateScope h he hq fun _ => rfl

theorem good_retainOutcome : Good t (t.retainOutcome id status).2 := by
  unfold retainOutcome
  cases he : t.get id with
  | none => exact .refl h
  | some e =>
    dsimp only
    obtain ⟨hq, ho⟩ := e.scope.quiet_finishBody status
    rcases hc : e.scope.finishBody status with ⟨done, scope⟩
    rw [hc] at hq ho
    cases done with
    | false => exact .refl h
    | true => exact good_updateScope h he hq fun hf => by rw [ho rfl] at hf; cases hf

theorem good_requestTreeCleanup : Good t (t.requestTreeCleanup id) := by
  unfold requestTreeCleanup
  cases he : t.get id with
  | none => exact .refl h
  | some e =>
    obtain ⟨hq, hn⟩ := e.scope.quiet_requestTreeCleanup
    exact good_updateScope h he hq hn

theorem good_requestCleanupTree (fuel root : Nat) : Good t (t.requestCleanupTree fuel root).2 := by
  unfold requestCleanupTree
  split
  · exact .refl h
  · exact good_foldl (fun _ id h => good_requestTreeCleanup h id) _ h

theorem good_abandonScope (fuel id : Nat) : Good t (t.abandonScope fuel id).2 := by
  unfold abandonScope
  cases he : t.get id with
  | none => exact .refl h
  | some e =>
    have hg : Good t (t.updateScope id false e.scope.abandon.2) :=
      good_updateScope h he e.scope.quiet_abandon fun _ => rfl
    dsimp only
    generalize e.scope.abandon = r at hg
    obtain ⟨cleanup, scope⟩ := r
    cases cleanup with
    | none => exact hg
    | some cleanup =>
      cases cleanup with
      | local_ => exact hg
      | tree => exact hg.trans (good_requestCleanupTree hg.sound fuel id)

theorem good_releaseFinalizing : Good t (t.releaseFinalizing id) := by
  refine good_modify_queue h (fun e _ => ?_) fun e _ => ?_
  · have hk : e.scope.releaseFinalizing.process = e.scope.process ∧
        e.scope.releaseFinalizing.finalized = e.scope.finalized ∧
        e.scope.releaseFinalizing.status = e.scope.status := by
      unfold Scope.releaseFinalizing
      dsimp only
      split <;> exact ⟨rfl, rfl, rfl⟩
    obtain ⟨hp, hfi, hst⟩ := hk
    refine ⟨⟨hp, rfl, rfl⟩, rfl, fun hs => ⟨fun hq => ?_, fun hf => ?_, fun hf => ?_⟩⟩
    · exact hfi.trans (hs.queued hq)
    · exact (congrArg ProcessStatus.isTerminal hst).trans (hs.terminal (hfi.symm.trans hf))
    · exact hs.released (hfi.symm.trans hf)
  · show e.scope.releaseFinalizing.budget = _
    unfold Scope.releaseFinalizing
    dsimp only
    split <;> rfl

theorem good_completeFinalization : Good t (t.completeFinalization id).2 := by
  unfold completeFinalization
  cases he : t.get id with
  | none => exact .refl h
  | some e =>
    dsimp only
    unfold Scope.completeFinalization
    cases hs : e.scope.status.isTerminal with
    | false => exact .refl h
    | true =>
      have hsa : ∀ e', t.get id = some e' → e' = e :=
        fun e' he' => Option.some.inj (he'.symm.trans he)
      refine good_modify_queue h (fun e' he' => ?_) fun e' he' => ?_
      · rw [hsa e' he']
        exact ⟨⟨rfl, rfl, rfl⟩, rfl, fun _ => ⟨fun _ => rfl, fun _ => hs,
          fun _ => ⟨rfl, rfl, rfl, rfl, rfl⟩⟩⟩
      · rw [hsa e' he']

theorem good_nextFinalizer : Good t (t.nextFinalizer id).2 := by
  unfold nextFinalizer
  cases he : t.get id with
  | none => exact .refl h
  | some e =>
    dsimp only
    split
    · exact .refl h
    · next hc =>
      simp only [Bool.or_eq_true, not_or, Bool.not_eq_true', Bool.not_eq_false] at hc
      -- a committed entry has no finalization to continue
      have ho : e.scope.finalized = false := by
        by_contra hf
        have hn := ((h.settled id e he).released (Bool.not_eq_false _ ▸ hf)).2.2.2.2
        rw [hc.1] at hn
        cases hn
      exact good_modify_open h he ho ho ⟨rfl, rfl, rfl⟩ rfl rfl

theorem good_activateChild (id finalizers : Nat) : Good t (t.activateChild id finalizers).2 := by
  unfold activateChild
  cases he : t.get id with
  | none => exact .refl h
  | some e =>
    dsimp only
    split
    · exact .refl h
    · next hc =>
      simp only [Bool.or_eq_true, not_or, Bool.not_eq_true', Bool.not_eq_false] at hc
      have ho : e.scope.finalized = false := Scope.not_finalized_of_accepts hc.1.2
      have hq := e.scope.quiet_start
      exact good_modify_open h he ho (hq.finalized.trans ho) ⟨hq.process, rfl, rfl⟩ rfl hq.budget

theorem good_setRequestAuthorizer : Good t (t.setRequestAuthorizer id).2 := by
  unfold setRequestAuthorizer
  cases he : t.get id with
  | none => exact .refl h
  | some e =>
    dsimp only
    split
    · exact .refl h
    · next ho =>
      rw [Bool.not_eq_true] at ho
      exact good_modify_open h he ho ho ⟨rfl, rfl, rfl⟩ rfl rfl

/-! ## Tickets and tasks -/

theorem good_pinCleanup : Good t (t.pinCleanup id).2 := by
  unfold pinCleanup
  cases t.get id with
  | none => exact .refl h
  | some e =>
    refine good_modify h (fun e _ => keeps_counts e _ _) (fun _ _ => rfl) fun e _ hr => ?_
    simp [reapable] at hr

theorem good_captureTask : Good t (t.captureTask id).2 := by
  unfold captureTask
  cases t.get id with
  | none => exact .refl h
  | some e =>
    refine good_modify h (fun e _ => keeps_counts e _ _) (fun _ _ => rfl) fun e _ hr => ?_
    simp [reapable] at hr

theorem good_dropCaptures : Good t (t.dropCaptures id) :=
  good_modify_queue h (fun e _ => keeps_counts e _ _) fun _ _ => rfl

theorem good_dropTicket : Good t (t.dropTicket id) := by
  have hk : ∀ e, t.get id = some e → Keeps e { e with cleanupPin := e.cleanupPin - 1 } :=
    fun e _ => keeps_counts e _ _
  unfold dropTicket
  dsimp only
  split
  · next hp =>
    refine ⟨(h.modify hk).strengthen fun hr => ?_, evolves_modify hk fun _ _ => rfl⟩
    obtain ⟨⟨e, he, hre⟩, -⟩ := canReap_iff.mp hr
    rw [he] at hp
    simp only [reapable, Bool.and_eq_true, beq_iff_eq] at hre
    simp only [Option.any_some, bne_iff_ne] at hp
    exact absurd (by tauto) hp
  · exact good_modify_queue h hk fun _ _ => rfl

theorem good_cleanupSelection (fuel id : Nat) : Good t (t.cleanupSelection fuel id) := by
  unfold cleanupSelection
  have hp := good_foldl (fun _ id h => good_pinCleanup h id) (t.cleanupMembers fuel id) h
  dsimp only
  split
  · exact hp.trans (good_foldl (fun _ id h => good_requestTreeCleanup h id) _ hp.sound)
  · exact hp

theorem good_attachManagedTask (id task : Nat) : Good t (t.attachManagedTask id task).2 := by
  unfold attachManagedTask
  cases t.get id with
  | none => exact .refl h
  | some e =>
    dsimp only
    split
    · exact .refl h
    · split
      · exact .refl h
      · refine ⟨h.frame rfl rfl rfl fun k _ ht => ?_, .of_core fun _ => rfl⟩
        rw [Finmap.lookup_insert_eq] at ht
        split at ht
        · cases ht
        · exact ht

theorem good_abandonTask (task : Nat) : Good t (t.abandonTask task) :=
  ⟨h.frame rfl rfl rfl fun _ _ ht => ht, .of_core fun _ => rfl⟩

theorem good_releaseTask (id task : Nat) : Good t (t.releaseTask id task) := by
  unfold releaseTask
  dsimp only
  split
  · -- only the entry that loses its task can become eligible
    have hs : Sound { { t with exited := insert task t.exited } with
        tasks := t.tasks.erase id } (some id) := by
      refine h.frame rfl rfl rfl fun k hne ht => ?_
      rw [Finmap.lookup_erase_eq, if_neg fun heq => hne (by rw [heq])] at ht
      exact ht
    exact ⟨hs.queue, .of_core fun k => (alike_queue _ id).core k⟩
  · have hs : Sound { t with exited := insert task t.exited } (some id) :=
      h.frame rfl rfl rfl fun _ _ ht => ht
    exact ⟨hs.queue, .of_core fun k => (alike_queue _ id).core k⟩

/-! ## Retention -/

theorem good_setCapacity {capacity : Option Nat}
    (ht : t.setCapacity capacity = .ok t') : Good t t' := by
  have heq : t' = { t with capacity } := by
    unfold setCapacity at ht
    cases capacity with
    | none => exact (Except.ok.inj ht).symm
    | some limit =>
      dsimp only at ht
      split at ht
      · cases ht
      · exact (Except.ok.inj ht).symm
  subst heq
  exact ⟨h.frame rfl rfl rfl fun _ _ hta => hta, .of_core fun _ => rfl⟩

theorem good_freshId : Good t t.freshId.2 := by
  unfold freshId
  split
  · exact .refl h
  · exact ⟨h.frame rfl rfl rfl fun _ _ ht => ht, .of_core fun _ => rfl⟩

theorem good_discardUnstartedChild (id parent : Nat) :
    Good t (t.discardUnstartedChild id parent).2 := by
  unfold discardUnstartedChild
  cases he : t.get id with
  | none => exact .refl h
  | some e =>
    dsimp only
    split
    · next hc =>
      simp only [Bool.and_eq_true, beq_iff_eq, List.isEmpty_iff] at hc
      obtain ⟨⟨⟨⟨⟨⟨⟨hp, hr⟩, -⟩, -⟩, -⟩, hzero⟩, hch⟩, -⟩ := hc
      -- an entry that still runs is not committed, so it is not queued
      have hqu : e.reapQueued = false := by
        by_contra hq
        have ht := (h.settled id e he).terminal
          ((h.settled id e he).queued (Bool.not_eq_false _ ▸ hq))
        rw [hr] at ht
        cases ht
      have hd := h.toTree.unlink { t with procs := t.procs.erase id } he hp rfl (fun _ => rfl)
        rfl rfl
      rw [unlinkFromParent_eq _ hp]
      refine ⟨((h.weaken (some id)).detach hd he hp hqu hch).queue, ?_⟩
      refine Evolves.trans ?_ (.of_core (alike_queue _ parent).core)
      refine ⟨fun k e' he' => ?_, fun k e' he' => ?_⟩
      · by_cases hk : k = id
        · subst hk
          cases he.symm.trans he'
          exact .inr ⟨hd.gone, hzero, by rw [hp]; exact nofun⟩
        · obtain ⟨slot, hg⟩ := hd.get_of_some hk he'
          exact .inl ⟨_, hg, rfl, rfl⟩
      · obtain ⟨-, e₀, slot, he₀, -⟩ := hd.get_some he'
        exact ⟨e₀, he₀⟩
    · exact .refl h

theorem good_setBudgetSpec (spec : ProcessEntry → BudgetSpec) :
    Good t (t.modify id fun e => { e with scope := e.scope.setBudgetSpec (spec e) }) := by
  refine good_modify h (fun e _ => ?_) (fun _ _ => rfl) fun e _ hr => hr
  exact ⟨⟨rfl, rfl, rfl⟩, rfl, fun hs => ⟨hs.queued, hs.terminal, hs.released⟩⟩

end ProcessTable
end Xolotl.Kernel
