import Xolotl.Kernel.ProcessBudget

/-! Histories of a process table, from the published root on. In every history the reap
queue holds the entries that can be reaped. -/

namespace Xolotl.Kernel

open DenseIndex

structure Admission where
  id : Nat
  parent : Nat
  started : Bool := true
  pinned : Bool := false
  onFinalize : Nat := 0
  steps : Bool := false
  requestAuthorizer : Bool := false
  publication : Bool := false
  limits : BudgetSpec := {}
  deriving DecidableEq, Repr

def Admission.entry (a : Admission) : ProcessEntry :=
  let entry := ProcessEntry.new a.id (some a.parent)
  let scope := entry.scope.setBudgetSpec a.limits
  { entry with
    scope := if a.started then scope.start.2 else scope
    cleanupPin := a.pinned.toNat
    onFinalize := a.onFinalize
    steps := a.steps
    requestAuthorizer := a.requestAuthorizer
    publication := a.publication }

inductive Lifecycle
  | freshId
  | setCapacity (capacity : Option Nat)
  | reapFinalized (limit : Nat)
  | reclaimForAdmission
  | discardUnstartedChild (id parent : Nat)
  | activateChild (id finalizers : Nat)
  | setRequestAuthorizer (id : Nat)
  | beginFinalizing (id : Nat) (status : ProcessStatus)
  | releaseFinalizing (id : Nat)
  | markTerminalStatus (id : Nat) (status : ProcessStatus)
  | completeFinalization (id : Nat)
  | cancelIfNonTerminal (id : Nat)
  | retainOutcome (id : Nat) (status : ProcessStatus)
  | nextFinalizer (id : Nat)
  | requestCleanupTree (fuel root : Nat)
  | abandonScope (fuel id : Nat)
  | pinCleanup (id : Nat)
  | dropTicket (id : Nat)
  | cleanupSelection (fuel id : Nat)
  | captureTask (id : Nat)
  | dropCaptures (id : Nat)
  | attachManagedTask (id task : Nat)
  | abandonTask (task : Nat)
  | releaseTask (id task : Nat)
  | setBudgetSpec (id : Nat) (spec : BudgetSpec)
  | restrictBudget (id : Nat) (ceiling : BudgetSpec)
  deriving DecidableEq, Repr

namespace ProcessTable

open ProcessEntry

variable {t : ProcessTable}

def perform (t : ProcessTable) : Lifecycle → ProcessTable
  | .freshId => t.freshId.2
  | .setCapacity capacity => match t.setCapacity capacity with
    | .ok t' => t'
    | .error _ => t
  | .reapFinalized limit => (reapFinalized limit t).2
  | .reclaimForAdmission => t.reclaimForAdmission
  | .discardUnstartedChild id parent => (t.discardUnstartedChild id parent).2
  | .activateChild id finalizers => (t.activateChild id finalizers).2
  | .setRequestAuthorizer id => (t.setRequestAuthorizer id).2
  | .beginFinalizing id status => (t.beginFinalizing id status).2
  | .releaseFinalizing id => t.releaseFinalizing id
  | .markTerminalStatus id status => (t.markTerminalStatus id status).2
  | .completeFinalization id => (t.completeFinalization id).2
  | .cancelIfNonTerminal id => (t.cancelIfNonTerminal id).2
  | .retainOutcome id status => (t.retainOutcome id status).2
  | .nextFinalizer id => (t.nextFinalizer id).2
  | .requestCleanupTree fuel root => (t.requestCleanupTree fuel root).2
  | .abandonScope fuel id => (t.abandonScope fuel id).2
  | .pinCleanup id => (t.pinCleanup id).2
  | .dropTicket id => t.dropTicket id
  | .cleanupSelection fuel id => t.cleanupSelection fuel id
  | .captureTask id => (t.captureTask id).2
  | .dropCaptures id => t.dropCaptures id
  | .attachManagedTask id task => (t.attachManagedTask id task).2
  | .abandonTask task => t.abandonTask task
  | .releaseTask id task => t.releaseTask id task
  | .setBudgetSpec id spec => t.setBudgetSpec id spec
  | .restrictBudget id ceiling => t.restrictBudget id ceiling

theorem good_perform (h : Sound t none) (op : Lifecycle) : Good t (t.perform op) := by
  cases op with
  | freshId => exact good_freshId h
  | setCapacity capacity =>
    rw [perform]
    cases hc : t.setCapacity capacity with
    | error e => exact .refl h
    | ok t' => exact good_setCapacity h hc
  | reapFinalized limit =>
    obtain ⟨l, hl, -⟩ := reapFinalized_spec h limit
    exact ⟨hl.sound, hl.reaps.evolves⟩
  | reclaimForAdmission =>
    obtain ⟨l, hl, -⟩ := reclaimForAdmission_spec h
    exact ⟨hl.sound, hl.reaps.evolves⟩
  | discardUnstartedChild id parent => exact good_discardUnstartedChild h id parent
  | activateChild id finalizers => exact good_activateChild h id finalizers
  | setRequestAuthorizer id => exact good_setRequestAuthorizer h id
  | beginFinalizing id status => exact good_beginFinalizing h id status
  | releaseFinalizing id => exact good_releaseFinalizing h id
  | markTerminalStatus id status => exact good_markTerminalStatus h id status
  | completeFinalization id => exact good_completeFinalization h id
  | cancelIfNonTerminal id => exact good_cancelIfNonTerminal h id
  | retainOutcome id status => exact good_retainOutcome h id status
  | nextFinalizer id => exact good_nextFinalizer h id
  | requestCleanupTree fuel root => exact good_requestCleanupTree h fuel root
  | abandonScope fuel id => exact good_abandonScope h fuel id
  | pinCleanup id => exact good_pinCleanup h id
  | dropTicket id => exact good_dropTicket h id
  | cleanupSelection fuel id => exact good_cleanupSelection h fuel id
  | captureTask id => exact good_captureTask h id
  | dropCaptures id => exact good_dropCaptures h id
  | attachManagedTask id task => exact good_attachManagedTask h id task
  | abandonTask task => exact good_abandonTask h task
  | releaseTask id task => exact good_releaseTask h id task
  | setBudgetSpec id spec => exact good_setBudgetSpec h id fun _ => spec
  | restrictBudget id ceiling =>
    exact good_setBudgetSpec h id fun e => e.scope.limits.intersect ceiling

/-! ## Admission -/

theorem admission_entry (a : Admission) : a.entry.scope.process = a.id ∧
    a.entry.parent = some a.parent ∧ a.entry.scope.finalized = false ∧
    a.entry.reapQueued = false ∧ a.entry.scope.budget = {} := by
  have hq := Scope.quiet_start
    ((ProcessEntry.new a.id (some a.parent)).scope.setBudgetSpec a.limits)
  unfold Admission.entry
  refine ⟨?_, rfl, ?_, rfl, ?_⟩
  · split
    · exact hq.process
    · rfl
  · split
    · exact hq.finalized
    · rfl
  · split
    · exact hq.budget
    · rfl

theorem checkVacancy_ok {id : Nat} (h : t.checkVacancy id = .ok ()) : t.get id = none := by
  unfold checkVacancy at h
  cases hid : t.get id with
  | none => rfl
  | some e =>
    rw [hid] at h
    cases h

theorem checkChildAdmission_ok {id : Nat} {parent : Option Nat}
    (h : t.checkChildAdmission id parent = .ok ()) :
    t.get id = none ∧ ∃ pe, parent.bind t.get = some pe := by
  unfold checkChildAdmission at h
  cases hv : t.checkVacancy id with
  | error e =>
    rw [hv] at h
    cases h
  | ok u =>
    refine ⟨checkVacancy_ok hv, ?_⟩
    rw [hv] at h
    cases hp : parent.bind t.get with
    | some pe => exact ⟨pe, rfl⟩
    | none =>
      rw [hp] at h
      cases h

theorem admit_cases (t : ProcessTable) (a : Admission) :
    (∃ e, t.admitEntry a.entry = (.error e, t)) ∨
    (t.admitEntry a.entry = (.ok (), t.linkEntry a.entry) ∧ t.get a.id = none ∧
      ∃ pe, t.get a.parent = some pe) := by
  obtain ⟨hp, hpa, -⟩ := admission_entry a
  unfold admitEntry
  cases hc : t.checkChildAdmission a.entry.scope.process a.entry.parent with
  | error e => exact Or.inl ⟨e, rfl⟩
  | ok u =>
    rw [hp] at hc
    obtain ⟨hid, hpe⟩ := checkChildAdmission_ok hc
    exact Or.inr ⟨rfl, hid, hpe⟩

theorem sound_admitEntry (h : Sound t none) (a : Admission) :
    Sound (t.admitEntry a.entry).2 none := by
  obtain ⟨hp, hpa, hf, hq, -⟩ := admission_entry a
  rcases t.admit_cases a with ⟨e, heq⟩ | ⟨heq, hid, hpe⟩
  · rw [heq]
    exact h
  · rw [heq]
    exact h.link hpa (by rw [hp]; exact hid) hpe hf hq

/-! ## Histories -/

inductive Operation
  | lifecycle (op : Lifecycle)
  | admission (a : Admission)
  | reserve (id microUsd tokens : Nat) (mode : ReserveMode)
  | settle (id reservedMicroUsd actualMicroUsd reservedTokens actualTokens : Nat)
  deriving DecidableEq, Repr

def Operation.run (t : ProcessTable) : Operation → ProcessTable
  | .lifecycle op => t.perform op
  | .admission a => (t.admitEntry a.entry).2
  | .reserve id microUsd tokens mode => (t.reserveBudget id microUsd tokens mode).2
  | .settle id reservedMicroUsd actualMicroUsd reservedTokens actualTokens =>
    t.settleBudget id reservedMicroUsd actualMicroUsd reservedTokens actualTokens

variable (capacity : Option Nat)

def published : ProcessTable := initializeRoot { capacity }

def history (ops : List Operation) : ProcessTable :=
  ops.foldl Operation.run (published capacity)

theorem get_published (k : Nat) : (published capacity).get k =
    if k = 1 then some { scope := { process := 1, status := .running }, parent := none }
    else none := by
  refine (Finmap.lookup_insert_eq ∅ 1 k _).trans ?_
  rfl

theorem sound_published : Sound (published capacity) none := by
  have hg := get_published capacity
  have hr : ∀ k e, (published capacity).get k = some e →
      k = 1 ∧ e = { scope := { process := 1, status := .running }, parent := none } := by
    intro k e hk
    rw [hg] at hk
    split at hk
    · next heq => exact ⟨heq, (Option.some.inj hk).symm⟩
    · cases hk
  refine ⟨⟨?_, ?_, ⟨fun _ => 0, ?_⟩, ?_, ?_⟩, ?_, ?_, List.nodup_nil, ?_⟩
  · intro k e hk
    obtain ⟨rfl, rfl⟩ := hr k e hk
    rfl
  · intro k e p hk hp
    obtain ⟨rfl, rfl⟩ := hr k e hk
    cases hp
  · intro k e p hk hp
    obtain ⟨rfl, rfl⟩ := hr k e hk
    cases hp
  · intro p c
    refine iff_of_false List.not_mem_nil ?_
    rintro ⟨e, he, hp⟩
    obtain ⟨rfl, rfl⟩ := hr c e he
    cases hp
  · intro p i c hc
    cases hc
  · intro k e hk
    obtain ⟨rfl, rfl⟩ := hr k e hk
    exact ⟨nofun, nofun, nofun⟩
  · intro k
    refine iff_of_false List.not_mem_nil ?_
    rintro ⟨e, he, hq⟩
    obtain ⟨rfl, rfl⟩ := hr k e he
    cases hq
  · intro k hk _
    obtain ⟨⟨e, he, hre⟩, -⟩ := canReap_iff.mp hk
    obtain ⟨rfl, rfl⟩ := hr k e he
    cases hre

theorem sound_run (h : Sound t none) (op : Operation) : Sound (op.run t) none := by
  cases op with
  | lifecycle op => exact (good_perform h op).sound
  | admission a => exact sound_admitEntry h a
  | reserve id microUsd tokens mode => exact sound_reserveBudget h id microUsd tokens mode
  | settle id reservedMicroUsd actualMicroUsd reservedTokens actualTokens =>
    exact sound_settleBudget _ _ _ _ h id

theorem sound_history (ops : List Operation) : Sound (history capacity ops) none := by
  have hr : ∀ t, Sound t none → Sound (ops.foldl Operation.run t) none := by
    induction ops with
    | nil => exact fun t h => h
    | cons op ops ih => exact fun t h => ih _ (sound_run h op)
  exact hr _ (sound_published capacity)

/-! ## The root -/

def Rooted (t : ProcessTable) : Prop := ∃ e, t.get 1 = some e ∧ e.parent = none

theorem rooted_run (h : Sound t none) (hr : Rooted t) (op : Operation) : Rooted (op.run t) := by
  obtain ⟨e, he, hp⟩ := hr
  cases op with
  | lifecycle op =>
    rcases (good_perform h op).evolves.kept 1 e he with ⟨e', he', hp', -⟩ | ⟨-, -, hne⟩
    · exact ⟨e', he', hp'.trans hp⟩
    · exact absurd hp hne
  | admission a =>
    obtain ⟨hpr, hpa, -⟩ := admission_entry a
    show Rooted (t.admitEntry a.entry).2
    rcases t.admit_cases a with ⟨error, heq⟩ | ⟨heq, hid, -⟩
    · rw [heq]
      exact ⟨e, he, hp⟩
    · rw [heq]
      refine ⟨e, ?_, hp⟩
      rw [get_linkEntry t hpa, hpr, if_neg]
      · exact he
      · rintro heq'
        rw [← heq', he] at hid
        cases hid
  | reserve id microUsd tokens mode =>
    show Rooted (t.reserveBudget id microUsd tokens mode).2
    rcases reserveBudget_spec mode microUsd tokens h.toTree id with
      ⟨t', heq, -, ha, -⟩ | ⟨error, heq⟩
    · rw [heq]
      obtain ⟨e', he', hp', -⟩ := ha.charges.get_some he
      exact ⟨e', he', hp'.trans hp⟩
    · rw [heq]
      exact ⟨e, he, hp⟩
  | settle id reservedMicroUsd actualMicroUsd reservedTokens actualTokens =>
    obtain ⟨e', he', hp', -⟩ := (settleBudget_spec reservedMicroUsd actualMicroUsd reservedTokens
      actualTokens h.toTree id).get_some he
    exact ⟨e', he', hp'.trans hp⟩

theorem rooted_history (ops : List Operation) : Rooted (history capacity ops) := by
  have hru : ∀ t, Sound t none → Rooted t → Rooted (ops.foldl Operation.run t) := by
    induction ops with
    | nil => exact fun t _ hr => hr
    | cons op ops ih => exact fun t h hr => ih _ (sound_run h op) (rooted_run h hr op)
  refine hru _ (sound_published capacity) ⟨_, (get_published capacity 1).trans (if_pos rfl), rfl⟩

/-- In every history: the root stays, every entry that can be reaped is queued once,
every child stands in its parent's vector at the slot it records, reaping removes only
eligible entries, children before parents, and reclaiming often enough removes every
finished subtree. -/
theorem reap_queue_exact (capacity : Option Nat) (ops : List Operation) :
    let t := history capacity ops
    Rooted t ∧
    (∀ id, t.canReap id = true → t.reapReady.count id = 1) ∧
    (∀ c e p, t.get c = some e → e.parent = some p → (t.childrenOf p)[e.parentSlot]? = some c) ∧
    (∀ limit, ∃ l, Reaps t l (reapFinalized limit t).2 ∧ (reapFinalized limit t).1 = l.length) ∧
    (∃ l, Reaps t l t.reclaimForAdmission) ∧
    (∀ l t', Reaps t l t' → ∀ c e p, t.get c = some e → e.parent = some p → p ∈ l →
      ∃ l₁ l₂, l = l₁ ++ c :: l₂ ∧ p ∈ l₂) ∧
    ∀ root, Finished t root → ∀ n, t.pendingReaps ≤ n → ∀ k, Under t root k →
      (reclaimForAdmission^[n] t).get k = none ∧
      ∀ limit, 0 < limit → ((fun t => (reapFinalized limit t).2)^[n] t).get k = none := by
  intro t
  have h : Sound t none := sound_history capacity ops
  refine ⟨rooted_history capacity ops, fun id hr => ?_, fun c e p he hp => ?_, fun limit => ?_, ?_,
    fun l t' hl c e p he hp hin => ?_, fun root hfin n hn k hk => ⟨?_, fun limit hlimit => ?_⟩⟩
  · exact List.count_eq_one_of_mem h.queue_nodup (h.ready id hr nofun)
  · have hat := (h.indexed p).getElem? ((h.children p c).mpr ⟨e, he, hp⟩)
    rw [slotOf, he] at hat
    exact hat
  · obtain ⟨l, hl, hcount, -⟩ := reapFinalized_spec h limit
    exact ⟨l, hl.reaps, hcount⟩
  · obtain ⟨l, hl, -⟩ := reclaimForAdmission_spec h
    exact ⟨l, hl.reaps⟩
  · exact hl.child_first ((h.children p c).mpr ⟨e, he, hp⟩) hin
  · exact reclaiming_reclaimForAdmission.removes h hfin hn hk
  · exact (reclaiming_reapFinalized hlimit).removes h hfin hn hk

end ProcessTable
end Xolotl.Kernel
