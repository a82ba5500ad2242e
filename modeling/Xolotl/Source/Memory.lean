import Xolotl.Source.Key
import Xolotl.State.Record

/-! The private Source maps of the in-memory backend and the operations that touch nothing
else: stream lifecycle, installation authority, evidence and maintenance. -/

namespace Xolotl.Source

open Xolotl.Types Word

structure AcceptedStream where
  streamId : Text
  seq : UInt64
  deriving DecidableEq

structure AcceptedEvent where
  claimId : SourceClaimId
  expiresAtMs : Int
  payloadDigest : Bytes
  stream : Option AcceptedStream
  deriving DecidableEq

structure RateRecord where
  windowMs : UInt64
  hits : List Int
  deriving DecidableEq

def RateRecord.expired (record : RateRecord) (decisionAtMs : Int) : Bool :=
  record.hits.getLast?.all fun last => last + record.windowMs.toNat ≤ decisionAtMs

structure SourceMemory where
  installations : OrderedMap Key ExternalInstallationRecord
  nextAuthorityEpoch : UInt64
  decisionTimeFloors : OrderedMap UInt64 Int
  streamRevisions : OrderedMap Bytes UInt64
  events : OrderedMap Bytes AcceptedEvent
  sequences : OrderedMap Bytes SourceStreamState
  rates : OrderedMap Bytes RateRecord
  receipts : OrderedMap Bytes SourceReceipt
  cursor : Option Bytes
  deriving DecidableEq

/-- What the store takes from its host: the admission of a declaration, the sizes of encodings
and the bounded fingerprint of a payload. -/
structure Host where
  validateAdmission : ExternalInstallationDef → Except Text Unit
  installationSize : ExternalInstallationRecord → Except Text Nat
  receiptSize : SourceReceipt → Option Nat
  payloadFingerprint : Value → Nat → Option (Option (Nat × Bytes))
  taintedSize : TaintedValue → State.StateResult Nat

namespace SourceMemory

def empty : SourceMemory :=
  ⟨.empty, 0, .empty, .empty, .empty, .empty, .empty, .empty, none⟩

def scopeEpoch (m : SourceMemory) (installation projection : Text) : Option UInt64 :=
  (m.installations.get ⟨installation⟩).bind fun record => record.scopeEpoch projection

variable (m : SourceMemory)

def activeStreamScope (stream : SourceStreamScope) : Bool :=
  m.scopeEpoch stream.installationId stream.projectionId == some stream.scopeEpoch

def revision (key : Bytes) : UInt64 := (m.streamRevisions.get key).getD 0

/-! ## Streams -/

def openAt (options : State.InMemoryOptions) (m : SourceMemory) (request : SourceStreamOpen)
    (key revisionKey : Bytes) : SourceResult SourceStreamOpenOutcome × SourceMemory :=
  let revision := m.revision revisionKey
  match m.sequences.get key with
  | some active =>
    let snapshot : SourceStreamSnapshot := ⟨revision, some active⟩
    if active.openId = request.openId ∧ active.openedAtRevision = request.expectedRevision then
      (.ok (.opened snapshot), m)
    else (.ok (.alreadyOpen snapshot), m)
  | none =>
    if request.expectedRevision ≠ revision then (.ok (.revisionConflict revision), m)
    else if options.sourceStreamLimit ≤ m.sequences.size then (.ok .quotaExceeded, m)
    else
      match checkedAdd m.nextAuthorityEpoch 1 with
      | none => (aborted "Source stream epoch exhausted", m)
      | some nextEpoch =>
        match checkedAdd revision 1 with
        | none => (aborted "Source stream revision exhausted", m)
        | some nextRevision =>
          let active : SourceStreamState := ⟨nextEpoch, revision, 0, request.openId⟩
          (.ok (.opened ⟨nextRevision, some active⟩),
            { m with
              nextAuthorityEpoch := nextEpoch
              streamRevisions := m.streamRevisions.insert revisionKey nextRevision
              sequences := m.sequences.insert key active })

def openStream (options : State.InMemoryOptions) (m : SourceMemory) (request : SourceStreamOpen) :
    SourceResult SourceStreamOpenOutcome × SourceMemory :=
  match streamScopeKey request.stream kindStream with
  | .error e => (.error e, m)
  | .ok key =>
    match streamScopeKey request.stream kindRevision with
    | .error e => (.error e, m)
    | .ok revisionKey =>
      if !isId request.openId then (aborted "Source stream open identity is invalid", m)
      else if !m.activeStreamScope request.stream then (.ok .scopeInactive, m)
      else m.openAt options request key revisionKey

def retireAt (request : SourceStreamRetire) (key revisionKey : Bytes) :
    SourceResult SourceStreamRetireOutcome × SourceMemory :=
  let revision := m.revision revisionKey
  match m.sequences.get key with
  | none => (.ok (.inactive revision), m)
  | some active =>
    if active.streamEpoch ≠ request.streamEpoch then (.ok (.stale active.streamEpoch), m)
    else
      match checkedAdd revision 1 with
      | none => (aborted "Source stream revision exhausted", m)
      | some nextRevision =>
        (.ok (.retired nextRevision),
          { m with
            sequences := m.sequences.erase key
            streamRevisions := m.streamRevisions.insert revisionKey nextRevision })

def retireStream (request : SourceStreamRetire) :
    SourceResult SourceStreamRetireOutcome × SourceMemory :=
  match streamScopeKey request.stream kindStream with
  | .error e => (.error e, m)
  | .ok key =>
    match streamScopeKey request.stream kindRevision with
    | .error e => (.error e, m)
    | .ok revisionKey =>
      if request.streamEpoch = 0 then (aborted "Source stream epoch is invalid", m)
      else if !m.activeStreamScope request.stream then (.ok .scopeInactive, m)
      else m.retireAt request key revisionKey

/-! ## Installations -/

def validateSources (installationId : Text) :
    List ExternalProjectionDef → Except SourceAdmissionError Unit
  | [] => .ok ()
  | projection :: rest =>
    match projection.emits with
    | none => validateSources installationId rest
    | some source =>
      match validateBuiltinSource installationId projection.id source with
      | .error e => .error e
      | .ok () => validateSources installationId rest

def assignEpochs : List ExternalProjectionDef → UInt64 → OrderedMap Key UInt64 →
    OrderedMap Key UInt64
  | [], _, epochs => epochs
  | projection :: rest, next, epochs =>
    if projection.emits.isSome then
      assignEpochs rest (next + 1) (epochs.insert ⟨projection.id⟩ (next + 1))
    else assignEpochs rest next epochs

def sourceCount (projections : List ExternalProjectionDef) : Nat :=
  projections.countP fun projection => projection.emits.isSome

/-- How many epochs a declaration takes: one for each Source, one for a new installation. -/
def allocated (definition : ExternalInstallationDef) : Nat :=
  sourceCount definition.projections
    + (if (m.installations.get ⟨definition.id⟩).isNone then 1 else 0)

def revisionKeys (installationId : Text) : List (Key × UInt64) → SourceResult (List Bytes)
  | [] => .ok []
  | (projection, epoch) :: rest => do
    let key ← revisionKey installationId projection.text epoch
    let keys ← revisionKeys installationId rest
    return key :: keys

/-- Forget what the scopes of a displaced record kept beside the event rows. -/
def displace (keys : List Bytes) (old : Option ExternalInstallationRecord) : SourceMemory :=
  { m with
    streamRevisions := m.streamRevisions.eraseAll keys
    decisionTimeFloors :=
      m.decisionTimeFloors.eraseAll
        ((old.map fun r => r.scopeEpochs.entries.map Prod.snd).getD []) }

/-- The record a declaration becomes: a new installation takes an epoch of its own first. -/
def installed (definition : ExternalInstallationDef) : ExternalInstallationRecord :=
  match m.installations.get ⟨definition.id⟩ with
  | none =>
    ⟨definition, m.nextAuthorityEpoch + 1,
      assignEpochs definition.projections (m.nextAuthorityEpoch + 1) .empty⟩
  | some old =>
    ⟨definition, old.installationEpoch,
      assignEpochs definition.projections m.nextAuthorityEpoch .empty⟩

def revisionKeysOf : Option ExternalInstallationRecord → SourceResult (List Bytes)
  | none => .ok []
  | some old => revisionKeys old.definition.id old.scopeEpochs.entries

def installNext (host : Host) (m : SourceMemory) (definition : ExternalInstallationDef)
    (high : UInt64) : SourceResult ExternalInstallationMutation × SourceMemory :=
  let old := m.installations.get ⟨definition.id⟩
  let record := m.installed definition
  match host.installationSize record with
  | .error e => (aborted ("installation encoding failed: " ++ e), m)
  | .ok size =>
    if maxInstallationRecordBytes < size then
      (aborted "external installation record exceeds byte maximum", m)
    else
      match revisionKeysOf old with
      | .error e => (.error e, m)
      | .ok keys =>
        (.ok (.applied (some record)),
          displace
            { m with
              nextAuthorityEpoch := high
              installations := m.installations.insert ⟨definition.id⟩ record } keys old)

def compareInstall (host : Host) (m : SourceMemory) (definition : ExternalInstallationDef)
    (expected : Option ExternalInstallationRevision) :
    SourceResult ExternalInstallationMutation × SourceMemory :=
  match host.validateAdmission definition with
  | .error e => (aborted ("installation admission failed: " ++ e), m)
  | .ok () =>
    match validateSources definition.id definition.projections with
    | .error e => (aborted e.text, m)
    | .ok () =>
      let old := m.installations.get ⟨definition.id⟩
      let current := old.map ExternalInstallationRecord.revision
      if current ≠ expected then (.ok (.conflict current), m)
      else
        match checkedAdd ((expected.map ExternalInstallationRevision.version).getD 0) 1 with
        | none => (aborted "installation version exhausted", m)
        | some version =>
          if u64Max < m.allocated definition then (aborted "installation epoch range exhausted", m)
          else
            match checkedAdd m.nextAuthorityEpoch (UInt64.ofNat (m.allocated definition)) with
            | none => (aborted "installation epoch exhausted", m)
            | some high => m.installNext host { definition with version := version } high

def compareRetire (id : Text) (expected : ExternalInstallationRevision) :
    SourceResult ExternalInstallationMutation × SourceMemory :=
  let current := (m.installations.get ⟨id⟩).map ExternalInstallationRecord.revision
  if current ≠ some expected then (.ok (.conflict current), m)
  else
    match m.installations.get ⟨id⟩ with
    | none => (aborted "installation record missing", m)
    | some old =>
      match revisionKeys id old.scopeEpochs.entries with
      | .error e => (.error e, m)
      | .ok keys =>
        (.ok (.applied none),
          displace { m with installations := m.installations.erase ⟨id⟩ } keys (some old))

/-! ## Evidence -/

def receiptMatches (receipt : SourceReceipt) (claim : SourceClaim) : Bool :=
  receipt.installationId == claim.installationId && receipt.projectionId == claim.projectionId
    && receipt.scopeEpoch == claim.scopeEpoch && receipt.streamEpoch == claim.streamEpoch
    && receipt.eventId == claim.eventId && receipt.claimId == claim.claimId

def inspect (claim : SourceClaim) : SourceResult SourceClaimEvidence := do
  let key ← claimKey claim
  match m.receipts.get key with
  | none => return .unproven
  | some receipt =>
    if receiptMatches receipt claim then return .committed receipt
    else aborted "Source receipt identity does not match its key"

def inspectEvent (request : SourceEventDecisionInspection) : SourceResult SourceClaimEvidence := do
  let eventKey ← eventKeyFor request.installationId request.projectionId request.scopeEpoch
    request.streamEpoch request.eventId
  match m.events.get eventKey with
  | none => return .unproven
  | some accepted =>
    let claim : SourceClaim :=
      ⟨request.installationId, request.projectionId, request.scopeEpoch, request.streamEpoch,
        request.eventId, accepted.claimId⟩
    let key ← claimKey claim
    match m.receipts.get key with
    | none => aborted "retained Source event has no claim receipt"
    | some receipt =>
      if receiptMatches receipt claim then return .committed receipt
      else aborted "Source receipt identity does not match event decision"

/-! ## Maintenance -/

def rowsAfter (prior : Option Bytes) : List Bytes :=
  let start := prior.getD [kindEvent]
  (m.events.keysFrom start ++ m.rates.keysFrom start ++ m.sequences.keysFrom start).filter
    fun key => prior.all (· < key)

/-- The floors of the active scopes a batch touches; none of them may have been passed. -/
def batchFloors (m : SourceMemory) (decisionAtMs : Int) :
    List Bytes → SourceResult (List (UInt64 × Int))
  | [] => .ok []
  | key :: rest =>
    match parseSourceScope key with
    | .error e => .error e
    | .ok (installation, projection, epoch) =>
      if m.scopeEpoch installation projection = some epoch then
        if (m.decisionTimeFloors.get epoch).any (decisionAtMs < ·) then
          aborted "Source decision clock regressed"
        else (batchFloors m decisionAtMs rest).map ((epoch, decisionAtMs) :: ·)
      else batchFloors m decisionAtMs rest

def receiptKeyOf (eventKey : Bytes) (claimId : SourceClaimId) : Bytes :=
  kindClaim :: (eventKey.tail ++ claimId.bytes)

def sweepRow (decisionAtMs : Int) (m : SourceMemory) (key : Bytes) :
    SourceResult Bool × SourceMemory :=
  if key.head? = some kindEvent then
    match m.events.get key with
    | none => (.ok false, m)
    | some record =>
      if decisionAtMs ≤ record.expiresAtMs then (.ok false, m)
      else
        (.ok true,
          { m with
            events := m.events.erase key
            receipts := m.receipts.erase (receiptKeyOf key record.claimId) })
  else if key.head? = some kindRate then
    match m.rates.get key with
    | none => (.ok false, m)
    | some record =>
      if record.expired decisionAtMs then (.ok true, { m with rates := m.rates.erase key })
      else (.ok false, m)
  else if key.head? = some kindStream then
    match parseSourceScope key with
    | .error e => (.error e, m)
    | .ok (installation, projection, epoch) =>
      if m.scopeEpoch installation projection ≠ some epoch then
        (.ok true, { m with sequences := m.sequences.erase key })
      else (.ok false, m)
  else (aborted "Source maintenance key is invalid", m)

def sweep (decisionAtMs : Int) : List Bytes → Nat → SourceMemory → SourceResult Nat × SourceMemory
  | [], removed, m => (.ok removed, m)
  | key :: rest, removed, m =>
    match sweepRow decisionAtMs m key with
    | (.error e, m) => (.error e, m)
    | (.ok gone, m) => sweep decisionAtMs rest (if gone then removed + 1 else removed) m

def maintain (decisionAtMs : Int) (limit : Nat) :
    SourceResult SourceMaintenanceResult × SourceMemory :=
  if maxMaintenanceBatch < limit then (aborted "Source maintenance batch exceeds maximum", m)
  else
    let rows := m.rowsAfter m.cursor
    let candidates := rows.take limit
    let hasMore : Bool := limit < rows.length
    match m.batchFloors decisionAtMs candidates with
    | .error e => (.error e, m)
    | .ok floors =>
      let m := { m with decisionTimeFloors := m.decisionTimeFloors.insertAll floors }
      match sweep decisionAtMs candidates 0 m with
      | (.error e, m) => (.error e, m)
      | (.ok removed, m) =>
        (.ok ⟨candidates.length, removed, !hasMore⟩,
          { m with
            cursor :=
              if hasMore then
                match candidates.getLast? with
                | some last => some last
                | none => m.cursor
              else none })

end SourceMemory

end Xolotl.Source
