import Xolotl.Source.Commit

/-! What an accepted commit has checked and what it writes; every other commit writes nothing. -/

namespace Xolotl.Source

open Xolotl.Types Xolotl.State Word Fallible Option

variable {verdict : Verdict} {admission : Admission}

theorem require_ok {condition : Prop} [Decidable condition] {u : Unit} :
    require condition verdict = .ok u ↔ condition := by
  unfold require
  split <;> simp [*]

theorem orAbort_ok {α : Type} {x : SourceResult α} {a : α} : orAbort x = .ok a ↔ x = .ok a := by
  cases x <;> simp [orAbort]

/-! ## Refusals -/

def Refusing {α : Type} (check : Check α) : Prop := check ≠ .error (.ok .accepted)

namespace Refusing

variable {α β : Type}

theorem ok (a : α) : Refusing (.ok a : Check α) := nofun

theorem bind {check : Check α} {next : α → Check β} (h : Refusing check)
    (hn : ∀ a, Refusing (next a)) : Refusing (check >>= next) := by
  cases check with
  | error verdict => exact fun heq => h (congrArg Except.error (Except.error.inj heq))
  | ok a => exact hn a

theorem rejected (reason : SourceCommitRejection) : Refusing (.error (rejected reason) : Check α) :=
  fun h => nomatch Except.ok.inj (Except.error.inj h)

theorem aborted (message : Text) : Refusing (.error (aborted message) : Check α) :=
  fun h => nomatch Except.error.inj h

theorem require {condition : Prop} [Decidable condition] {verdict : Verdict}
    (h : Refusing (.error verdict : Check Unit)) : Refusing (require condition verdict) := by
  unfold Source.require
  split
  · exact ok ()
  · exact h

theorem orAbort (x : SourceResult α) : Refusing (orAbort x) := by
  cases x with
  | ok a => exact ok a
  | error e => exact fun h => nomatch Except.error.inj h

end Refusing

theorem refusing_prepare (host : Host) (request : SourceCommit) :
    Refusing (prepare host request) := by
  have hfp : Refusing (fingerprint host request) := by
    unfold fingerprint
    split
    · exact .aborted _
    · exact .rejected _
    · exact .ok _
  refine .bind (.orAbort _) fun _ => .bind hfp fun _ => .bind (.orAbort _) fun _ => ?_
  refine .bind (.orAbort _) fun _ => .bind (.orAbort _) fun _ => .bind (.orAbort _) fun _ => ?_
  refine .bind (.require (.rejected _)) fun _ => .bind (.require (.aborted _)) fun _ => ?_
  exact .bind (.require (.aborted _)) fun _ => .bind (.require (.aborted _)) fun _ => .ok _

variable (m : SourceMemory) (request : SourceCommit) (prepared : Prepared) (decisionAtMs : Int)

theorem refusing_checkScope : Refusing (checkScope m request) := by
  unfold checkScope
  split
  · exact .rejected _
  · split
    · exact .rejected _
    · split
      · exact .aborted _
      · exact .require (.rejected _)

theorem refusing_checkStream : Refusing (checkStream m prepared) := by
  unfold checkStream
  split
  · exact .ok _
  · split
    · exact .rejected _
    · exact .require (.rejected _)

theorem refusing_checkDecision : Refusing (checkDecision m request prepared decisionAtMs) := by
  unfold checkDecision
  split
  · exact .ok _
  · split
    · split
      · exact fun h => nomatch Except.ok.inj (Except.error.inj h)
      · exact .rejected _
    · exact .ok _

theorem refusing_checkSequence : Refusing (checkSequence m prepared) := by
  unfold checkSequence
  split
  · exact .ok _
  · dsimp only
    split
    · exact .aborted _
    · split
      · exact .rejected _
      · exact .require (.rejected _)

theorem refusing_checkRate : Refusing (checkRate m prepared decisionAtMs) := by
  unfold checkRate
  split
  · exact .ok _
  · exact .bind (.require (.rejected _)) fun _ => .bind (.require (.aborted _)) fun _ =>
      .require (.rejected _)

theorem refusing_sink (values : OrderedMap Path CurrentRecord) (request : SourceCommit)
    (prepared : Prepared) :
    Refusing (checkSink values request) ∧
    (∀ count, Refusing (checkOverflow request prepared count)) ∧
      ∀ count replace, Refusing (nextSink values request prepared count replace) := by
  refine ⟨?_, fun count => ?_, fun count replace => ?_⟩
  · unfold checkSink
    split
    · exact .ok _
    · exact .ok _
    · exact .rejected _
  · unfold checkOverflow
    split
    · exact .ok _
    · split
      · exact .rejected _
      · exact .ok _
    · split
      · exact .rejected _
      · exact .ok _
  · unfold nextSink
    dsimp only
    split
    · split
      · exact .aborted _
      · exact .ok _
    · split
      · exact .aborted _
      · exact .ok _

theorem refusing_admit (options : InMemoryOptions) (st : MemoryState) (request : SourceCommit)
    (prepared : Prepared) (decisionAtMs : Int) (sample : Sample) :
    Refusing (admitCommit options st request prepared decisionAtMs sample) := by
  obtain ⟨hc, hr, hs⟩ := refusing_sink st.values request prepared
  refine .bind (.require (.aborted _)) fun _ => .bind (refusing_checkScope _ _) fun _ => ?_
  refine .bind (refusing_checkStream _ _) fun _ =>
    .bind (refusing_checkDecision _ _ _ _) fun _ => ?_
  refine .bind (.require (.aborted _)) fun _ => .bind (refusing_checkSequence _ _) fun _ => ?_
  refine .bind (refusing_checkRate _ _ _) fun _ => .bind hc fun count => ?_
  refine .bind (hr count) fun replace => .bind (.require (.rejected _)) fun _ => ?_
  refine .bind (hs count replace) fun _ => .bind ?_ fun _ => .ok _
  unfold nextTimestamp
  split
  · split
    · exact .aborted _
    · exact .ok _
  · exact .ok _

theorem refusing_checkSizes (host : Host) (options : InMemoryOptions) (st : MemoryState)
    (request : SourceCommit) (admission : Admission) :
    Refusing (checkSizes host options st request admission) := by
  unfold checkSizes
  split
  · exact .aborted _
  · refine .bind (.require (.rejected _)) fun _ => ?_
    split
    · exact .aborted _
    · refine .bind (.require (.aborted _)) fun _ => ?_
      split
      · exact .aborted _
      · exact .ok _

/-! ## Preparation -/

structure Prepares : Prop where
  valid : request.claim.name.Valid
  eventKey : prepared.eventKey = request.claim.name.key
  receiptKey : prepared.receiptKey = request.claim.name.claimKey request.claim.claimId
  stream : prepared.stream =
    request.stream.map fun s => (s, StreamName.key ⟨request.claim.scope, s.streamId⟩)
  rate : prepared.rate = request.rateLimit.map fun r => (r, request.claim.scope.key kindRate)
  maxEvents : prepared.maxEvents = request.capacity.maxEvents.toNat
  positive : prepared.maxEvents ≠ 0
  epochs : request.claim.streamEpoch = request.stream.map SourceStreamPosition.streamEpoch
  streamId : ∀ s ∈ request.stream, isId s.streamId = true

variable {request : SourceCommit} {prepared : Prepared} {m : SourceMemory} {decisionAtMs : Int}
  {previousClaim : Option SourceClaimId} {options : InMemoryOptions} {st : MemoryState}
  {sample : Sample}

theorem validateCommit_ok (h : validateCommit request = .ok ()) :
    request.claim.streamEpoch = request.stream.map SourceStreamPosition.streamEpoch ∧
      ∀ s ∈ request.stream, isId s.streamId = true := by
  unfold validateCommit at h
  split at h
  next => cases h
  next =>
    split at h
    next => cases h
    next he =>
      split at h
      next => cases h
      next hst =>
        refine ⟨not_not.mp he, fun s hs => ?_⟩
        rw [mem_def] at hs
        simpa [hs] using hst

theorem streamKeyOf_ok {stream : Option (SourceStreamPosition × Bytes)}
    (h : streamKeyOf request = .ok stream) :
    stream = request.stream.map fun s => (s, StreamName.key ⟨request.claim.scope, s.streamId⟩) := by
  unfold streamKeyOf at h
  split at h
  next hn =>
    rw [hn]
    exact (Except.ok.inj h).symm
  next s hs =>
    obtain ⟨key, hk, rfl⟩ := map_eq_ok.mp h
    rw [hs, (streamKey_eq_ok.mp hk).2]
    rfl

theorem rateKeyOf_ok {rate : Option (SourceRateLimit × Bytes)} (h : rateKeyOf request = .ok rate) :
    rate = request.rateLimit.map fun r => (r, request.claim.scope.key kindRate) := by
  unfold rateKeyOf at h
  split at h
  next hn =>
    rw [hn]
    exact (Except.ok.inj h).symm
  next r hs =>
    obtain ⟨key, hk, rfl⟩ := map_eq_ok.mp h
    rw [hs, (epochKey_eq_ok.mp hk).2]
    rfl

variable {host : Host} {key : Bytes}

theorem prepare_ok (h : prepare host request = .ok prepared) : Prepares request prepared := by
  unfold prepare at h
  simp only [bind_ok, orAbort_ok, require_ok] at h
  obtain ⟨_, hvalid, _, _, _, hev, _, hr, _, hs, _, hra, _, hp, _, _, _, _, _, _, h⟩ := h
  cases Except.ok.inj h
  obtain ⟨hn, rfl⟩ := eventKeyFor_eq_ok.mp hev
  exact {
    valid := hn
    eventKey := rfl
    receiptKey := (claimKey_eq_ok.mp hr).2
    stream := streamKeyOf_ok hs
    rate := rateKeyOf_ok hra
    maxEvents := rfl
    positive := hp
    epochs := (validateCommit_ok hvalid).1
    streamId := (validateCommit_ok hvalid).2 }

/-! ## Admission -/

def SourceMemory.declared (m : SourceMemory) (scope : ScopeName) : Option EventSource :=
  match m.installations.get ⟨scope.installation⟩ with
  | none => none
  | some record =>
    if record.scopeEpoch scope.projection = some scope.epoch then
      (record.definition.projection scope.projection).bind ExternalProjectionDef.emits
    else none

theorem SourceMemory.scopeEpoch_of_declared {scope : ScopeName}
    {source : EventSource} (h : m.declared scope = some source) :
    m.scopeEpoch scope.installation scope.projection = some scope.epoch := by
  unfold declared at h
  split at h
  next => cases h
  next record hr =>
    split at h
    next hep =>
      rw [SourceMemory.scopeEpoch, hr]
      exact hep
    next => cases h

theorem checkScope_ok (h : checkScope m request = .ok ()) :
    ∃ source, m.declared request.claim.scope = some source ∧ source.sink = request.sink ∧
      source.capacity = request.capacity ∧
      source.maxInlinePayloadBytes = request.maxInlinePayloadBytes ∧
      source.rateLimit = request.rateLimit := by
  unfold checkScope at h
  split at h
  next => cases h
  next record hr =>
    split at h
    next => cases h
    next hep =>
      split at h
      next => cases h
      next source hs =>
        refine ⟨source, ?_, require_ok.mp h⟩
        have hg : m.installations.get ⟨request.claim.scope.installation⟩ = some record := hr
        rw [SourceMemory.declared, hg]
        exact (if_pos (not_not.mp hep)).trans hs

theorem checkStream_ok (hst : checkStream m prepared = .ok ())
    (hs : checkSequence m prepared = .ok ()) {stream : SourceStreamPosition}
    (hp : prepared.stream = some (stream, key)) :
    ∃ active, m.sequences.get key = some active ∧ active.streamEpoch = stream.streamEpoch ∧
      checkedAdd active.lastSeq 1 = some stream.seq := by
  unfold checkStream at hst
  unfold checkSequence at hs
  simp only [hp] at hst hs
  cases hr : m.sequences.get key with
  | none =>
    rw [hr] at hst
    cases hst
  | some active =>
    simp only [hr, map_some] at hst hs
    refine ⟨active, rfl, require_ok.mp hst, ?_⟩
    split at hs
    next => cases hs
    next expected he =>
      split at hs
      next => cases hs
      next => rw [he, require_ok.mp hs]

theorem checkDecision_ok (h : checkDecision m request prepared decisionAtMs = .ok previousClaim) :
    previousClaim = (m.events.get prepared.eventKey).map AcceptedEvent.claimId ∧
      ∀ record ∈ m.events.get prepared.eventKey, record.expiresAtMs < decisionAtMs := by
  unfold checkDecision at h
  split at h
  next hn =>
    rw [hn]
    exact ⟨(Except.ok.inj h).symm, nofun⟩
  next record hs =>
    split at h
    next => split at h <;> cases h
    next he =>
      rw [hs]
      refine ⟨(Except.ok.inj h).symm, fun other ho => ?_⟩
      cases ho
      exact not_le.mp he

theorem checkRate_ok (h : checkRate m prepared decisionAtMs = .ok ()) {rule : SourceRateLimit}
    (hp : prepared.rate = some (rule, key)) :
    retainedHits m rule key (cutoff decisionAtMs rule) < rule.maxEvents.toNat := by
  unfold checkRate at h
  simp only [hp, bind_ok, require_ok] at h
  obtain ⟨-, -, -, -, hc⟩ := h
  exact hc

structure Admits (options : InMemoryOptions) (st : MemoryState) (request : SourceCommit)
    (prepared : Prepared) (decisionAtMs : Int) (sample : Sample)
    (admission : Admission) : Prop where
  floor : ∀ floor ∈ st.journal.source.decisionTimeFloors.get request.claim.scopeEpoch,
    floor ≤ decisionAtMs
  scope : ∃ source, st.journal.source.declared request.claim.scope = some source ∧
    source.sink = request.sink ∧ source.capacity = request.capacity ∧
    source.maxInlinePayloadBytes = request.maxInlinePayloadBytes ∧
    source.rateLimit = request.rateLimit
  stream : checkStream st.journal.source prepared = .ok ()
  previous : admission.previousClaim =
    (st.journal.source.events.get prepared.eventKey).map AcceptedEvent.claimId
  expired : ∀ record ∈ st.journal.source.events.get prepared.eventKey,
    record.expiresAtMs < decisionAtMs
  unclaimed : st.journal.source.receipts.get prepared.receiptKey = none
  sequence : checkSequence st.journal.source prepared = .ok ()
  rate : checkRate st.journal.source prepared decisionAtMs = .ok ()
  retention : addedRows st.journal.source prepared admission.previousClaim = 0 ∨
    st.journal.source.events.size + st.journal.source.rates.size +
      addedRows st.journal.source prepared admission.previousClaim ≤ options.sourceRetentionLimit
  sink : ∃ count replace, checkSink st.values request = .ok count ∧
    checkOverflow request prepared count = .ok replace ∧
    nextSink st.values request prepared count replace = .ok (admission.stored, admission.event)
  timestamp : nextTimestamp options st.journal request sample = .ok admission.atMillis

theorem admit_ok (h : admitCommit options st request prepared decisionAtMs sample = .ok admission) :
    Admits options st request prepared decisionAtMs sample admission := by
  unfold admitCommit at h
  simp only [bind_ok] at h
  obtain ⟨_, hf, _, hs, _, hst, previousClaim, hd, _, hc, _, hse, _,
    hra, count, hcn, replace, hrp, _, hr, ⟨stored, event⟩, hsi, atMillis, ht,
    h⟩ := h
  cases Except.ok.inj h
  obtain ⟨hp, he⟩ := checkDecision_ok hd
  exact {
    floor := require_ok.mp hf
    scope := checkScope_ok hs
    stream := hst
    previous := hp
    expired := he
    unclaimed := by simpa [OrderedMap.contains] using require_ok.mp hc
    sequence := hse
    rate := hra
    retention := require_ok.mp hr
    sink := ⟨count, replace, hcn, hrp, hsi⟩
    timestamp := ht }

/-! ## The written maps -/

def decisionOf (request : SourceCommit) (payloadDigest : Bytes) (decisionAtMs : Int) :
    AcceptedEvent :=
  { claimId := request.claim.claimId
    expiresAtMs := eventExpiresAt decisionAtMs request.dedupeWindowMs
    payloadDigest := payloadDigest
    stream := request.stream.map fun stream => ⟨stream.streamId, stream.seq⟩ }

def withoutReceipt (m : SourceMemory) (name : EventName) : OrderedMap Bytes SourceReceipt :=
  match m.events.get name.key with
  | none => m.receipts
  | some record => m.receipts.erase (name.claimKey record.claimId)

def advanced (m : SourceMemory) (request : SourceCommit) : OrderedMap Bytes SourceStreamState :=
  match request.stream with
  | none => m.sequences
  | some stream =>
    let key := StreamName.key ⟨request.claim.scope, stream.streamId⟩
    match m.sequences.get key with
    | none => m.sequences
    | some active => m.sequences.insert key { active with lastSeq := stream.seq }

def rated (m : SourceMemory) (request : SourceCommit) (decisionAtMs : Int) :
    OrderedMap Bytes RateRecord :=
  match request.rateLimit with
  | none => m.rates
  | some rule =>
    let key := request.claim.scope.key kindRate
    m.rates.insert key (hitAt (m.rates.get key) rule decisionAtMs)

def acceptedSource (m : SourceMemory) (request : SourceCommit) (payloadDigest : Bytes)
    (decisionAtMs : Int) : SourceMemory :=
  { m with
    decisionTimeFloors := m.decisionTimeFloors.insert request.claim.scopeEpoch decisionAtMs
    events := m.events.insert request.claim.name.key (decisionOf request payloadDigest decisionAtMs)
    receipts := (withoutReceipt m request.claim.name).insert
      (request.claim.name.claimKey request.claim.claimId) (receiptOf request)
    sequences := advanced m request
    rates := rated m request decisionAtMs }

theorem writeDecision_receipts (decisionAtMs : Int) (hpr : Prepares request prepared)
    (hp : previousClaim = (m.events.get prepared.eventKey).map AcceptedEvent.claimId) :
    (writeDecision m request prepared decisionAtMs previousClaim).receipts =
      withoutReceipt m request.claim.name := by
  unfold writeDecision withoutReceipt
  simp only [hp, hpr.eventKey]
  cases m.events.get request.claim.name.key with
  | none => rfl
  | some record => rfl

theorem writePosition_eq
    (hpr : Prepares request prepared) (hst : checkStream m prepared = .ok ())
    (m' : SourceMemory) (hs : m'.sequences = m.sequences) :
    writePosition m' prepared = some { m' with sequences := advanced m request } := by
  unfold writePosition advanced
  have hp := hpr.stream
  cases hr : request.stream with
  | none =>
    rw [hr] at hp
    simp [hp, ← hs]
  | some stream =>
    rw [hr] at hp
    unfold checkStream at hst
    simp only [hp, map_some] at hst ⊢
    rw [hs]
    cases hro : m.sequences.get (StreamName.key ⟨request.claim.scope, stream.streamId⟩) with
    | none =>
      rw [hro] at hst
      cases hst
    | some active => rfl

theorem writes_eq (decisionAtMs : Int) (hp : Prepares request prepared)
    (hpr : previousClaim = (m.events.get prepared.eventKey).map AcceptedEvent.claimId)
    (hs : checkStream m prepared = .ok ()) :
    (writePosition (writeDecision m request prepared decisionAtMs previousClaim) prepared).map
        (fun m => writeReceipt (writeHit m prepared decisionAtMs) request prepared) =
      some (acceptedSource m request prepared.payloadDigest decisionAtMs) := by
  rw [writePosition_eq hp hs (writeDecision m request prepared decisionAtMs
    previousClaim) rfl, map_some]
  have hrc := writeDecision_receipts decisionAtMs hp hpr
  have hr := hp.rate
  unfold writeReceipt writeHit acceptedSource rated
  cases hru : request.rateLimit with
  | none =>
    rw [hru] at hr
    simp only [hr, map_none, hrc, hp.receiptKey]
    simp only [writeDecision, hp.eventKey, decisionOf]
  | some rule =>
    rw [hru] at hr
    simp only [hr, map_some, hrc, hp.receiptKey]
    simp only [writeDecision, hp.eventKey, decisionOf]

/-! ## Commits -/

structure Accepts (options : InMemoryOptions) (st : MemoryState) (request : SourceCommit)
    (decisionAtMs : Int) (sample : Sample) (prepared : Prepared) (admission : Admission)
    (st' : MemoryState) : Prop where
  prepares : Prepares request prepared
  admits : Admits options st request prepared decisionAtMs sample admission
  values : st'.values = st.values.insert request.sink (.live admission.stored)
  journal : ∃ absence, st'.journal =
    ({ st.journal with
      absence := absence
      source := acceptedSource st.journal.source request prepared.payloadDigest
        decisionAtMs }).record
        admission.atMillis admission.event

theorem accept_eq (hp : Prepares request prepared)
    (ha : Admits options st request prepared decisionAtMs sample admission)
    (watch : Watch) (absence : AbsenceUsage) (targets : List Nat) :
    let result := accept { st with watch := watch } request prepared decisionAtMs admission absence
      targets
    result.1 = .ok .accepted ∧
      Accepts options st request decisionAtMs sample prepared admission result.2 := by
  have hw := writes_eq decisionAtMs hp ha.previous ha.stream
  obtain ⟨m, hpos, hs⟩ := map_eq_some_iff.mp hw
  unfold accept
  simp only [hpos]
  exact ⟨trivial, hp, ha, rfl, absence, by rw [← hs]⟩

/-- A commit is accepted with everything checked and written, or leaves values and journal alone. -/
theorem commitSource_cases {st' : MemoryState}
    (h : commitSource host options st request decisionAtMs sample = (verdict, st')) :
    (verdict ≠ .ok .accepted ∧ st'.values = st.values ∧ st'.journal = st.journal) ∨
      (verdict = .ok .accepted ∧ ∃ prepared admission,
        Accepts options st request decisionAtMs sample prepared admission st') := by
  unfold commitSource at h
  cases hp : prepare host request with
  | error early =>
    rw [hp] at h
    cases h
    exact .inl ⟨fun h => refusing_prepare host request (h ▸ hp), rfl, rfl⟩
  | ok prepared =>
    simp only [hp, commitLocked] at h
    have hr := refusing_admit options st request prepared decisionAtMs sample
    cases ha : admitCommit options st request prepared decisionAtMs sample with
    | error early =>
      rw [ha] at h
      cases h
      exact .inl ⟨fun h => hr (h ▸ ha), rfl, rfl⟩
    | ok admission =>
      simp only [ha] at h
      split at h
      next =>
        cases h
        exact .inl ⟨nofun, rfl, rfl⟩
      next watch _ =>
        have hr := refusing_checkSizes host options { st with watch := watch } request admission
        cases hs : checkSizes host options { st with watch := watch } request admission with
        | error early =>
          rw [hs] at h
          cases h
          exact .inl ⟨fun h => hr (h ▸ hs), rfl, rfl⟩
        | ok absence =>
          obtain ⟨hv, hac⟩ := accept_eq (prepare_ok hp) (admit_ok ha) watch
            absence (st.watch.subscribers.matching request.sink)
          simp only [hs] at h
          rw [h] at hv hac
          exact .inr ⟨hv, prepared, admission, hac⟩

end Xolotl.Source
