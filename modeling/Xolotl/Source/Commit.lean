import Xolotl.State.Memory

/-! Commit of one Source event: a sequence of checks against the private maps and the sink,
then one update of all of them. -/

namespace Xolotl.Source

open Xolotl.Types Xolotl.State Word

abbrev Verdict := SourceResult SourceCommitOutcome

/-- A check lets the commit continue with a result, or ends it with a verdict. -/
abbrev Check (α : Type) := Except Verdict α

def rejected (reason : SourceCommitRejection) : Verdict := .ok (.rejected reason)

def require (condition : Prop) [Decidable condition] (otherwise : Verdict) : Check Unit :=
  if condition then .ok () else .error otherwise

def orAbort {α : Type} : SourceResult α → Check α
  | .ok a => .ok a
  | .error e => .error (.error e)

structure Prepared where
  payloadDigest : Bytes
  eventKey : Bytes
  receiptKey : Bytes
  stream : Option (SourceStreamPosition × Bytes)
  rate : Option (SourceRateLimit × Bytes)
  maxEvents : Nat

variable (host : Host) (options : InMemoryOptions) (st : MemoryState) (m : SourceMemory)
  (values : OrderedMap Path CurrentRecord) (request : SourceCommit) (prepared : Prepared)
  (decisionAtMs : Int)

def fingerprint : Check Bytes :=
  match host.payloadFingerprint request.payload request.maxInlinePayloadBytes with
  | none => .error (aborted "Source payload could not be encoded")
  | some none => .error (rejected .payloadTooLarge)
  | some (some (_, digest)) => .ok digest

def streamKeyOf : SourceResult (Option (SourceStreamPosition × Bytes)) :=
  match request.stream with
  | none => .ok none
  | some stream => (streamKey request.claim stream).map fun key => some (stream, key)

def rateKeyOf : SourceResult (Option (SourceRateLimit × Bytes)) :=
  match request.rateLimit with
  | none => .ok none
  | some rule => (rateKey request.claim).map fun key => some (rule, key)

def prepare : Check Prepared := do
  orAbort (validateCommit request)
  let payloadDigest ← fingerprint host request
  let eventKey ← orAbort (eventKey request.claim)
  let receiptKey ← orAbort (claimKey request.claim)
  let stream ← orAbort (streamKeyOf request)
  let rate ← orAbort (rateKeyOf request)
  let maxEvents := request.capacity.maxEvents.toNat
  require (maxEvents ≠ 0) (rejected .capacityExceeded)
  require (maxEvents ≤ maxSinkEvents) (aborted "Source sink event capacity exceeds maximum")
  require (request.maxInlinePayloadBytes ≠ 0
      ∧ maxEvents * request.maxInlinePayloadBytes ≤ maxDeclaredSinkBytes)
    (aborted "Source declared sink byte budget exceeds maximum")
  require (∀ position ∈ request.stream, (position.seq.toNat : Int) ≤ i64Max)
    (aborted "Source sequence exceeds supported range")
  return ⟨payloadDigest, eventKey, receiptKey, stream, rate, maxEvents⟩

/-! ## Admission against the maps -/

def checkFloor : Check Unit :=
  require (∀ floor ∈ m.decisionTimeFloors.get request.claim.scopeEpoch, floor ≤ decisionAtMs)
    (aborted "Source decision clock regressed")

def checkScope : Check Unit :=
  match m.installations.get ⟨request.claim.installationId⟩ with
  | none => .error (rejected .scopeInactive)
  | some record =>
    if record.scopeEpoch request.claim.projectionId ≠ some request.claim.scopeEpoch then
      .error (rejected .scopeInactive)
    else
      match (record.definition.projection request.claim.projectionId).bind
          ExternalProjectionDef.emits with
      | none => .error (aborted "active Source scope has no declaration")
      | some source =>
        require (source.sink = request.sink ∧ source.capacity = request.capacity
            ∧ source.maxInlinePayloadBytes = request.maxInlinePayloadBytes
            ∧ source.rateLimit = request.rateLimit)
          (rejected .declarationMismatch)

def checkStream : Check Unit :=
  match prepared.stream with
  | none => .ok ()
  | some (stream, key) =>
    match m.sequences.get key with
    | none => .error (rejected .streamInactive)
    | some active =>
      require (active.streamEpoch = stream.streamEpoch)
        (rejected (.streamEpochMismatch active.streamEpoch))

/-- An unexpired decision answers the attempt; an expired one names the claim it replaces. -/
def checkDecision : Check (Option SourceClaimId) :=
  match m.events.get prepared.eventKey with
  | none => .ok none
  | some record =>
    if decisionAtMs ≤ record.expiresAtMs then
      if record.payloadDigest = prepared.payloadDigest
          ∧ record.stream.map (fun stream => (stream.streamId, stream.seq)) =
            request.stream.map (fun stream => (stream.streamId, stream.seq)) then
        .error (.ok .duplicate)
      else .error (rejected .eventIdConflict)
    else .ok (some record.claimId)

def checkClaim : Check Unit :=
  require (m.receipts.contains prepared.receiptKey = false)
    (aborted "Source claim identity already exists")

def checkSequence : Check Unit :=
  match prepared.stream with
  | none => .ok ()
  | some (stream, key) =>
    let previous := (m.sequences.get key).map SourceStreamState.lastSeq
    let expected :=
      match previous with
      | none => some 1
      | some last => checkedAdd last 1
    match expected with
    | none => .error (aborted "Source sequence exhausted")
    | some expected =>
      if stream.seq < expected then
        .error (rejected (.sequenceReplay (previous.getD 0) stream.seq))
      else require (stream.seq = expected) (rejected (.sequenceGap expected stream.seq))

def retainedHits (rule : SourceRateLimit) (key : Bytes) (cutoff : Int) : Nat :=
  match m.rates.get key with
  | none => 0
  | some record =>
    if record.windowMs = rule.windowMs then (record.hits.filter (cutoff < ·)).length else 0

def cutoff (rule : SourceRateLimit) : Int :=
  decisionAtMs - rule.windowMs.toNat

def checkRate : Check Unit :=
  match prepared.rate with
  | none => .ok ()
  | some (rule, key) => do
    require (rule.windowMs ≠ 0 ∧ rule.maxEvents ≠ 0) (rejected .rateLimited)
    require (rule.maxEvents.toNat ≤ maxRateHits) (aborted "Source rate record exceeds maximum")
    require (retainedHits m rule key (cutoff decisionAtMs rule) < rule.maxEvents.toNat)
      (rejected .rateLimited)

/-! ## The sink -/

def currentRecord : Option CurrentRecord := values.get request.sink

def currentValue : Option Value :=
  (currentRecord values request).bind CurrentRecord.value

def checkSink : Check Nat :=
  match currentValue values request with
  | none => .ok 0
  | some (.list items) => .ok items.length
  | some _ => .error (rejected .sinkTypeMismatch)

/-- Whether the sink drops its oldest items; the other policies refuse a full sink. -/
def checkOverflow (count : Nat) : Check Bool :=
  match request.capacity.onOverflow with
  | .dropOldest => .ok (decide (prepared.maxEvents ≤ count))
  | .backpressure pauseThreshold _ =>
    if pauseThreshold.toNat ≤ count ∨ prepared.maxEvents ≤ count then
      .error (rejected .backpressured)
    else .ok false
  | .disconnectBridge =>
    if prepared.maxEvents ≤ count then .error (rejected .capacityExceeded) else .ok false

def addedRates : Nat :=
  match prepared.rate with
  | none => 0
  | some (_, key) => if m.rates.contains key then 0 else 1

def addedRows (previousClaim : Option SourceClaimId) : Nat :=
  (if previousClaim.isNone then 1 else 0) + addedRates m prepared

def checkRetention (previousClaim : Option SourceClaimId) : Check Unit :=
  let retained := m.events.size + m.rates.size
  let added := addedRows m prepared previousClaim
  require (added = 0 ∨ retained + added ≤ options.sourceRetentionLimit)
    (rejected .retentionCapacityExceeded)

def nextSink (count : Nat) (replace : Bool) : Check (TaintedValue × StateEvent) :=
  let observed :=
    match currentRecord values request with
    | none => request.taint
    | some current => current.taint.merged request.taint
  if replace then
    let removed := count - (prepared.maxEvents - 1)
    match dropPrefixAppendObservedValue request.sink (currentValue values request) removed
        request.payload observed with
    | .error _ => .error (aborted "Source sink prefix drop failed")
    | .ok stored =>
      .ok (stored, .dropPrefixAppend request.sink removed request.payload stored.taint)
  else
    match appendObservedValue request.sink (currentValue values request) request.payload
        observed with
    | .error _ => .error (aborted "Source sink append failed")
    | .ok stored => .ok (stored, .append request.sink request.payload stored.taint)

def nextTimestamp (journal : Journal) (request : SourceCommit)
    (sample : Sample) : Check (Option Int) :=
  if options.history = .full ∧ historyRetainsPath request.sink = true then
    match journal.nextMillis sample.nowMillis with
    | none => .error (aborted "State history timestamp exhausted")
    | some atMillis => .ok (some atMillis)
  else .ok none

structure Admission where
  previousClaim : Option SourceClaimId
  stored : TaintedValue
  event : StateEvent
  atMillis : Option Int

/-- Everything checked before the notification queue. -/
def admitCommit (sample : Sample) : Check Admission := do
  let m := st.journal.source
  checkFloor m request decisionAtMs
  checkScope m request
  checkStream m prepared
  let previousClaim ← checkDecision m request prepared decisionAtMs
  checkClaim m prepared
  checkSequence m prepared
  checkRate m prepared decisionAtMs
  let count ← checkSink st.values request
  let replace ← checkOverflow request prepared count
  checkRetention options m prepared previousClaim
  let (stored, event) ← nextSink st.values request prepared count replace
  let atMillis ← nextTimestamp options st.journal request sample
  return ⟨previousClaim, stored, event, atMillis⟩

def receiptOf : SourceReceipt :=
  ⟨request.claim.installationId, request.claim.projectionId, request.claim.scopeEpoch,
    request.claim.streamEpoch, request.claim.eventId, request.claim.claimId, request.sink,
    request.receivedAtMs⟩

/-- Sizes and the absence budget, checked after the queue has made room. -/
def checkSizes (admission : Admission) : Check AbsenceUsage := do
  match host.taintedSize admission.stored with
  | .error _ => .error (aborted "Source sink size could not be measured")
  | .ok size =>
    require (size ≤ maxDeclaredSinkBytes) (rejected .capacityExceeded)
    match host.receiptSize (receiptOf request) with
    | none => .error (aborted "Source receipt size could not be measured")
    | some size =>
      require (size ≤ maxReceiptBytes) (aborted "Source receipt row exceeds byte maximum")
      match st.journal.absence.replacing (currentRecord st.values request)
          (some (.live admission.stored)) options with
      | .error _ => .error (aborted "Source absence accounting failed")
      | .ok absence => .ok absence

/-! ## The update -/

def writeDecision (previousClaim : Option SourceClaimId) : SourceMemory :=
  { m with
    decisionTimeFloors := m.decisionTimeFloors.insert request.claim.scopeEpoch decisionAtMs
    receipts :=
      match previousClaim with
      | none => m.receipts
      | some claimId => m.receipts.erase (SourceMemory.receiptKeyOf prepared.eventKey claimId)
    events := m.events.insert prepared.eventKey
      { claimId := request.claim.claimId
        expiresAtMs := eventExpiresAt decisionAtMs request.dedupeWindowMs
        payloadDigest := prepared.payloadDigest
        stream := request.stream.map fun stream => ⟨stream.streamId, stream.seq⟩ } }

def writePosition : Option SourceMemory :=
  match prepared.stream with
  | none => some m
  | some (stream, key) =>
    match m.sequences.get key with
    | none => none
    | some active =>
      some { m with sequences := m.sequences.insert key { active with lastSeq := stream.seq } }

/-- Hits of another window are forgotten, old hits dropped, the new one put in order. -/
def hitAt (record : Option RateRecord) (rule : SourceRateLimit) (decisionAtMs : Int) : RateRecord :=
  let hits :=
    match record with
    | none => []
    | some record => if record.windowMs = rule.windowMs then record.hits else []
  let hits := hits.filter (cutoff decisionAtMs rule < ·)
  ⟨rule.windowMs, hits.takeWhile (· ≤ decisionAtMs) ++ decisionAtMs ::
    hits.dropWhile (· ≤ decisionAtMs)⟩

def writeHit : SourceMemory :=
  match prepared.rate with
  | none => m
  | some (rule, key) =>
    { m with rates := m.rates.insert key (hitAt (m.rates.get key) rule decisionAtMs) }

def writeReceipt : SourceMemory :=
  { m with receipts := m.receipts.insert prepared.receiptKey (receiptOf request) }

def accept
    (admission : Admission) (absence : AbsenceUsage) (targets : List Nat) : Verdict × MemoryState :=
  let m := writeDecision st.journal.source request prepared decisionAtMs admission.previousClaim
  let st := { st with
    values := st.values.insert request.sink (.live admission.stored)
    journal := { st.journal with absence := absence, source := m } }
  match writePosition m prepared with
  | none => (aborted "active Source stream disappeared", st)
  | some m =>
    let m := writeReceipt (writeHit m prepared decisionAtMs) request prepared
    (.ok .accepted,
      { st with
        journal := ({ st.journal with source := m }).record admission.atMillis admission.event
        watch := st.watch.publish admission.event targets })

/-- The part of a commit under the lock. A call enters it when nobody has left notifications
behind, and drains them itself afterwards if it is the one to do so. -/
def commitLocked (sample : Sample) : Verdict × MemoryState :=
  match admitCommit options st request prepared decisionAtMs sample with
  | .error verdict => (verdict, st)
  | .ok admission =>
    let targets := st.watch.subscribers.matching request.sink
    match st.watch.reserve options sample.alive targets with
    | (false, watch) => (aborted "State notification backlog exhausted", { st with watch := watch })
    | (true, watch) =>
      let st := { st with watch := watch }
      match checkSizes host options st request admission with
      | .error verdict => (verdict, st)
      | .ok absence => accept st request prepared decisionAtMs admission absence targets

def commitSource (sample : Sample) : Verdict × MemoryState :=
  match prepare host request with
  | .error verdict => (verdict, st)
  | .ok prepared => commitLocked host options st request prepared decisionAtMs sample

end Xolotl.Source
