import Xolotl.Lib.Machine
import Xolotl.Source.Accept
import Xolotl.Source.Lifecycle

/-! Histories of the Source store: any sequence of its operations, with the rest of the backend
moving in between, and what one step can do to the private maps. -/

namespace Xolotl.Source

open Xolotl.Types Xolotl.State Word SourceMemory

/-! ## Admitted commits -/

structure Admitted (options : InMemoryOptions) (m : SourceMemory) (request : SourceCommit)
    (decisionAtMs : Int) : Prop where
  valid : request.claim.name.Valid
  epochs : request.claim.streamEpoch = request.stream.map SourceStreamPosition.streamEpoch
  streamId : ∀ s ∈ request.stream, isId s.streamId = true
  floor : ∀ floor ∈ m.decisionTimeFloors.get request.claim.scopeEpoch, floor ≤ decisionAtMs
  declared : ∃ source, m.declared request.claim.scope = some source ∧ source.sink = request.sink ∧
    source.capacity = request.capacity ∧ source.rateLimit = request.rateLimit
  position : ∀ s ∈ request.stream, ∃ row, m.streamAt ⟨request.claim.scope, s.streamId⟩ = some row ∧
    row.streamEpoch = s.streamEpoch ∧ checkedAdd row.lastSeq 1 = some s.seq
  expired : ∀ record ∈ m.events.get request.claim.name.key, record.expiresAtMs < decisionAtMs
  unclaimed : m.receipts.get (request.claim.name.claimKey request.claim.claimId) = none
  rate : ∀ rule ∈ request.rateLimit, retainedHits m rule (request.claim.scope.key kindRate)
    (cutoff decisionAtMs rule) < rule.maxEvents.toNat
  retention : ∀ digest, (acceptedSource m request digest decisionAtMs).events.size +
      (acceptedSource m request digest decisionAtMs).rates.size ≤
    max (m.events.size + m.rates.size) options.sourceRetentionLimit

variable {request : SourceCommit} {prepared : Prepared} {decisionAtMs : Int}

theorem size_acceptedSource {m : SourceMemory}
    (digest : Bytes) (hp : Prepares request prepared) :
    (acceptedSource m request digest decisionAtMs).events.size +
        (acceptedSource m request digest decisionAtMs).rates.size =
      m.events.size + m.rates.size + addedRows m prepared
        ((m.events.get prepared.eventKey).map AcceptedEvent.claimId) := by
  have hr := hp.rate
  have he : (acceptedSource m request digest decisionAtMs).events.size =
      m.events.size + (if ((m.events.get prepared.eventKey).map AcceptedEvent.claimId).isNone
        then 1 else 0) := by
    rw [acceptedSource, OrderedMap.size_insert, OrderedMap.contains, ← hp.eventKey]
    cases m.events.get prepared.eventKey <;> simp
  have hra : (acceptedSource m request digest decisionAtMs).rates.size =
      m.rates.size + addedRates m prepared := by
    rw [acceptedSource, rated, addedRates]
    cases hru : request.rateLimit with
    | none =>
      rw [hru] at hr
      simp [hr]
    | some rule =>
      rw [hru] at hr
      simp only [hr, Option.map_some, OrderedMap.size_insert]
      split <;> simp
  rw [addedRows]
  omega

theorem Accepts.admitted {options : InMemoryOptions} {st st' : MemoryState}
    {sample : Sample} {admission : Admission}
    (h : Accepts options st request decisionAtMs sample prepared admission st') :
    Admitted options st.journal.source request decisionAtMs := by
  obtain ⟨hp, ha, -, -⟩ := h
  obtain ⟨source, hd, hsi, hc, -, hr⟩ := ha.scope
  have hst := hp.stream
  have hra := hp.rate
  refine {
    valid := hp.valid
    epochs := hp.epochs
    streamId := hp.streamId
    floor := ha.floor
    declared := ⟨source, hd, hsi, hc, hr⟩
    position := fun s hs => ?_
    expired := hp.eventKey ▸ ha.expired
    unclaimed := hp.receiptKey ▸ ha.unclaimed
    rate := fun rule hr => ?_
    retention := fun digest => ?_ }
  · rw [Option.mem_def.mp hs] at hst
    exact checkStream_ok ha.stream ha.sequence hst
  · rw [Option.mem_def.mp hr] at hra
    exact checkRate_ok ha.rate hra
  · rw [size_acceptedSource digest hp]
    have hre := ha.retention
    rw [ha.previous] at hre
    omega

/-! ## Calls -/

inductive Call
  | commit (request : SourceCommit) (decisionAtMs : Int) (sample : Sample)
  | openStream (request : SourceStreamOpen)
  | retireStream (request : SourceStreamRetire)
  | compareInstall (definition : ExternalInstallationDef)
      (expected : Option ExternalInstallationRevision)
  | compareRetire (id : Text) (expected : ExternalInstallationRevision)
  | maintain (decisionAtMs : Int) (limit : Nat)
  /-- Subscriptions and the notification queue move between calls. -/
  | notify (watch : Watch)
  /-- Other operations of the backend change anything but the Source maps. -/
  | write (values : OrderedMap Path CurrentRecord) (journal : Journal)

inductive Answer
  | commit (verdict : Verdict)
  | opened (result : SourceResult SourceStreamOpenOutcome)
  | retired (result : SourceResult SourceStreamRetireOutcome)
  | mutation (result : SourceResult ExternalInstallationMutation)
  | maintenance (result : SourceResult SourceMaintenanceResult)
  | silent

def Answer.refused : Answer → Bool
  | .commit verdict => verdict != .ok .accepted
  | .opened (.error _) => true
  | .retired (.error _) => true
  | .mutation (.error _) => true
  | .maintenance (.error _) => true
  | _ => false

def withSource (st : MemoryState) (m : SourceMemory) : MemoryState :=
  { st with journal := { st.journal with source := m } }

def step (host : Host) (options : InMemoryOptions) (st : MemoryState) : Call → Answer × MemoryState
  | .commit request decisionAtMs sample =>
    let (verdict, st) := commitSource host options st request decisionAtMs sample
    (.commit verdict, st)
  | .openStream request =>
    let (result, m) := st.journal.source.openStream options request
    (.opened result, withSource st m)
  | .retireStream request =>
    let (result, m) := st.journal.source.retireStream request
    (.retired result, withSource st m)
  | .compareInstall definition expected =>
    let (result, m) := st.journal.source.compareInstall host definition expected
    (.mutation result, withSource st m)
  | .compareRetire id expected =>
    let (result, m) := st.journal.source.compareRetire id expected
    (.mutation result, withSource st m)
  | .maintain decisionAtMs limit =>
    let (result, m) := st.journal.source.maintain decisionAtMs limit
    (.maintenance result, withSource st m)
  | .notify watch => (.silent, { st with watch := watch })
  | .write values journal =>
    (.silent, { st with
      values := values
      journal := { journal with source := st.journal.source } })

structure Acceptance where
  request : SourceCommit
  decisionAtMs : Int

def acceptance (host : Host) (options : InMemoryOptions) (st : MemoryState) : Call → List Acceptance
  | .commit request decisionAtMs sample =>
    if (commitSource host options st request decisionAtMs sample).1 = .ok .accepted then
      [⟨request, decisionAtMs⟩]
    else []
  | _ => []

section Store

variable (host : Host) (options : InMemoryOptions)

def run (st : MemoryState) (calls : List Call) : MemoryState :=
  Machine.run (step host options) st calls

def accepted (st : MemoryState) (calls : List Call) : List Acceptance :=
  Machine.collect (step host options) (acceptance host options) st calls

end Store

/-! ## One step -/

variable (host : Host) (options : InMemoryOptions) (m : SourceMemory) in
/-- What a step does to the Source maps; a change is tied to the acceptance it produces. -/
inductive Change : List Acceptance → SourceMemory → Prop
  | none : Change [] m
  | accept {request : SourceCommit} {decisionAtMs : Int} (digest : Bytes)
      (h : Admitted options m request decisionAtMs) :
      Change [⟨request, decisionAtMs⟩] (acceptedSource m request digest decisionAtMs)
  | openStream {request : SourceStreamOpen} {nextEpoch nextRevision : UInt64}
      (h : m.Opens options request nextEpoch nextRevision) :
      Change [] (m.opened request nextEpoch nextRevision)
  | retireStream {request : SourceStreamRetire} {row : SourceStreamState} {nextRevision : UInt64}
      (h : m.Retires request row nextRevision) :
      Change [] (m.retired request nextRevision)
  | install {definition : ExternalInstallationDef} {expected : Option ExternalInstallationRevision}
      {version high : UInt64} {keys : List Bytes}
      (h : m.Installs host definition expected version high keys) :
      Change [] (m.replaced definition version high keys)
  | uninstall {id : Text} {expected : ExternalInstallationRevision}
      {old : ExternalInstallationRecord} {keys : List Bytes}
      (h : m.Uninstalls id expected old keys) :
      Change [] (m.removed id old keys)
  | maintain (decisionAtMs : Int) (limit : Nat) : Change [] (m.maintain decisionAtMs limit).2

theorem source_record (journal : Journal) (atMillis : Option Int) (event : StateEvent) :
    (journal.record atMillis event).source = journal.source := by
  cases atMillis <;> rfl

/-- The one lemma about steps that everything below uses. A call other than maintenance leaves the
cursor, and if it is refused all the rest. -/
theorem step_spec (host : Host) (options : InMemoryOptions) (st : MemoryState) (call : Call) :
    Change host options st.journal.source (acceptance host options st call)
      (step host options st call).2.journal.source ∧
    ((∀ decisionAtMs limit, call ≠ .maintain decisionAtMs limit) →
      (step host options st call).2.journal.source.cursor = st.journal.source.cursor ∧
      ((step host options st call).1.refused = true →
        (step host options st call).2.values = st.values ∧
          (step host options st call).2.journal = st.journal)) := by
  cases call with
  | commit request decisionAtMs sample =>
    rcases h : commitSource host options st request decisionAtMs sample with ⟨verdict, st'⟩
    simp only [step, acceptance, h]
    rcases commitSource_cases h with ⟨hv, hs⟩ | ⟨rfl, prepared, admission, ha⟩
    · rw [if_neg hv, hs.2]
      exact ⟨.none, fun _ => ⟨rfl, fun _ => ⟨hs.1, rfl⟩⟩⟩
    · obtain ⟨absence, hj⟩ := ha.journal
      rw [hj, source_record]
      exact ⟨.accept _ ha.admitted, fun _ => ⟨rfl, nofun⟩⟩
  | openStream request =>
    rcases h : st.journal.source.openStream options request with ⟨answer, m'⟩
    simp only [step, h, withSource]
    rcases openStream_cases h with ⟨rfl, -⟩ | ⟨_, _, ho, rfl, rfl⟩
    · exact ⟨.none, fun _ => ⟨rfl, fun _ => ⟨trivial, rfl⟩⟩⟩
    · exact ⟨.openStream ho, fun _ => ⟨rfl, nofun⟩⟩
  | retireStream request =>
    rcases h : st.journal.source.retireStream request with ⟨answer, m'⟩
    simp only [step, h, withSource]
    rcases retireStream_cases h with rfl | ⟨_, _, hr, rfl, rfl⟩
    · exact ⟨.none, fun _ => ⟨rfl, fun _ => ⟨trivial, rfl⟩⟩⟩
    · exact ⟨.retireStream hr, fun _ => ⟨rfl, nofun⟩⟩
  | compareInstall definition expected =>
    rcases h : st.journal.source.compareInstall host definition expected with ⟨answer, m'⟩
    simp only [step, h, withSource]
    rcases compareInstall_cases h with ⟨rfl, -⟩ | ⟨_, _, _, hi, rfl, rfl⟩
    · exact ⟨.none, fun _ => ⟨rfl, fun _ => ⟨trivial, rfl⟩⟩⟩
    · exact ⟨.install hi, fun _ => ⟨rfl, nofun⟩⟩
  | compareRetire id expected =>
    rcases h : st.journal.source.compareRetire id expected with ⟨answer, m'⟩
    simp only [step, h, withSource]
    rcases compareRetire_cases h with ⟨rfl, -⟩ | ⟨_, _, hu, rfl, rfl⟩
    · exact ⟨.none, fun _ => ⟨rfl, fun _ => ⟨trivial, rfl⟩⟩⟩
    · exact ⟨.uninstall hu, fun _ => ⟨rfl, nofun⟩⟩
  | maintain decisionAtMs limit =>
    exact ⟨.maintain decisionAtMs limit, fun hc => absurd rfl (hc decisionAtMs limit)⟩
  | notify watch | write values journal => exact ⟨.none, fun _ => ⟨rfl, nofun⟩⟩

theorem step_change (host : Host) (options : InMemoryOptions) (st : MemoryState) (call : Call) :
    Change host options st.journal.source (acceptance host options st call)
      (step host options st call).2.journal.source := (step_spec host options st call).1

/-! ## A small store -/

def plainHost : Host where
  validateAdmission _ := .ok ()
  installationSize _ := .ok 0
  receiptSize _ := some 0
  payloadFingerprint _ _ := some (some (0, []))
  taintedSize _ := .ok 0

def plainOptions : InMemoryOptions := ⟨.full, 1, 2, 4, ⟨none, none⟩⟩

def inboxPath : Path where
  cluster := none
  scheme := "state"
  segments := ["inbox"]
  scheme_valid := Path.valid_state
  cluster_valid := Path.valid_none
  segments_valid := by decide

def inboxSource : EventSource := ⟨inboxPath, 8, ⟨1, .dropOldest⟩, some ⟨10, 2⟩⟩

def inboxDefinition : ExternalInstallationDef := ⟨"i", [⟨"p", some inboxSource⟩], 0, []⟩

def inboxClaim (event : Text) (id : UInt8) (streamEpoch : Option UInt64) : SourceClaim :=
  ⟨"i", "p", 2, streamEpoch, event, ⟨List.replicate 16 id, by simp⟩⟩

def inboxCommit (event : Text) (id : UInt8) (stream : Option SourceStreamPosition) : SourceCommit :=
  ⟨inboxClaim event id (stream.map SourceStreamPosition.streamEpoch), 0, 5, inboxPath,
    inboxSource.capacity, 8, .int 1, .pristine, stream, inboxSource.rateLimit⟩

def quiet : Sample := ⟨0, fun _ => true⟩

end Xolotl.Source
