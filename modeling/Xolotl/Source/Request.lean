import Xolotl.Lib.OrderedMap
import Xolotl.Lib.Word
import Xolotl.Types.Key
import Xolotl.Types.PathText
import Xolotl.Types.Taint

/-! Requests and outcomes of the Source ports, and the checks made before any state is read. -/

namespace Xolotl.Source

open Xolotl.Types

def maxMaintenanceBatch : Nat := 64
def maxDeclaredSinkBytes : Nat := 64 * 1024 * 1024
def maxSinkEvents : Nat := 65536
def maxInlinePayloadBytes : Nat := 1024 * 1024
def maxIdBytes : Nat := 256
def maxSinkPathBytes : Nat := 4096
def maxReceiptBytes : Nat := 16 * 1024
def maxRateHits : Nat := 65536
def maxInstallationRecordBytes : Nat := 1024 * 1024

inductive SourceStoreError
  | aborted (message : Text)
  | indeterminate (message : Text)
  deriving DecidableEq

abbrev SourceResult (α : Type) := Except SourceStoreError α

def aborted {α : Type} (message : Text) : SourceResult α := .error (.aborted message)

/-! ## Declarations -/

inductive OverflowPolicy
  | dropOldest
  | backpressure (pauseThreshold resumeThreshold : UInt32)
  | disconnectBridge
  deriving DecidableEq

structure StreamCapacity where
  maxEvents : UInt32
  onOverflow : OverflowPolicy
  deriving DecidableEq

structure SourceRateLimit where
  windowMs : UInt64
  maxEvents : UInt32
  deriving DecidableEq

structure EventSource where
  sink : Path
  maxInlinePayloadBytes : Nat
  capacity : StreamCapacity
  rateLimit : Option SourceRateLimit
  deriving DecidableEq

structure ExternalProjectionDef where
  id : Text
  emits : Option EventSource
  deriving DecidableEq

/-- The remaining fields of a declaration matter only to its admission and its size; they
stand in their encoded form. -/
structure ExternalInstallationDef where
  id : Text
  projections : List ExternalProjectionDef
  version : UInt64
  remainder : List UInt8
  deriving DecidableEq

def ExternalInstallationDef.projection (definition : ExternalInstallationDef) (id : Text) :
    Option ExternalProjectionDef :=
  definition.projections.find? fun projection => projection.id == id

structure ExternalInstallationRevision where
  installationEpoch : UInt64
  version : UInt64
  deriving DecidableEq

structure ExternalInstallationRecord where
  definition : ExternalInstallationDef
  installationEpoch : UInt64
  scopeEpochs : OrderedMap Key UInt64
  deriving DecidableEq

namespace ExternalInstallationRecord

def revision (record : ExternalInstallationRecord) : ExternalInstallationRevision :=
  ⟨record.installationEpoch, record.definition.version⟩

def scopeEpoch (record : ExternalInstallationRecord) (projectionId : Text) : Option UInt64 :=
  record.scopeEpochs.get ⟨projectionId⟩

end ExternalInstallationRecord

inductive ExternalInstallationMutation
  | applied (record : Option ExternalInstallationRecord)
  | conflict (current : Option ExternalInstallationRevision)
  deriving DecidableEq

/-! ## Events -/

structure SourceClaimId where
  bytes : List UInt8
  length_bytes : bytes.length = 16
  deriving DecidableEq

structure SourceClaim where
  installationId : Text
  projectionId : Text
  scopeEpoch : UInt64
  streamEpoch : Option UInt64
  eventId : Text
  claimId : SourceClaimId
  deriving DecidableEq

structure SourceStreamPosition where
  streamId : Text
  streamEpoch : UInt64
  seq : UInt64
  deriving DecidableEq

/-- One attempt. The clock is sampled under the lock and stands beside the request. -/
structure SourceCommit where
  claim : SourceClaim
  receivedAtMs : Int
  dedupeWindowMs : UInt64
  sink : Path
  capacity : StreamCapacity
  maxInlinePayloadBytes : Nat
  payload : Value
  taint : TaintSet
  stream : Option SourceStreamPosition
  rateLimit : Option SourceRateLimit
  deriving DecidableEq

inductive SourceCommitRejection
  | scopeInactive
  | streamInactive
  | streamEpochMismatch (activeEpoch : UInt64)
  | eventIdConflict
  | payloadTooLarge
  | declarationMismatch
  | backpressured
  | capacityExceeded
  | retentionCapacityExceeded
  | sinkTypeMismatch
  | rateLimited
  | sequenceReplay (last seq : UInt64)
  | sequenceGap (expected seq : UInt64)
  deriving DecidableEq

inductive SourceCommitOutcome
  | accepted
  | duplicate
  | rejected (reason : SourceCommitRejection)
  deriving DecidableEq

structure SourceStreamScope where
  installationId : Text
  projectionId : Text
  scopeEpoch : UInt64
  streamId : Text
  deriving DecidableEq

structure SourceStreamState where
  streamEpoch : UInt64
  openedAtRevision : UInt64
  lastSeq : UInt64
  openId : Text
  deriving DecidableEq

structure SourceStreamSnapshot where
  revision : UInt64
  active : Option SourceStreamState
  deriving DecidableEq

structure SourceStreamOpen where
  stream : SourceStreamScope
  openId : Text
  expectedRevision : UInt64
  deriving DecidableEq

structure SourceStreamRetire where
  stream : SourceStreamScope
  streamEpoch : UInt64
  deriving DecidableEq

inductive SourceStreamOpenOutcome
  | opened (snapshot : SourceStreamSnapshot)
  | alreadyOpen (snapshot : SourceStreamSnapshot)
  | revisionConflict (currentRevision : UInt64)
  | quotaExceeded
  | scopeInactive
  deriving DecidableEq

inductive SourceStreamRetireOutcome
  | retired (revision : UInt64)
  | inactive (revision : UInt64)
  | stale (activeEpoch : UInt64)
  | scopeInactive
  deriving DecidableEq

structure SourceReceipt where
  installationId : Text
  projectionId : Text
  scopeEpoch : UInt64
  streamEpoch : Option UInt64
  eventId : Text
  claimId : SourceClaimId
  sink : Path
  receivedAtMs : Int
  deriving DecidableEq

inductive SourceClaimEvidence
  | committed (receipt : SourceReceipt)
  | unproven
  deriving DecidableEq

structure SourceEventDecisionInspection where
  installationId : Text
  projectionId : Text
  scopeEpoch : UInt64
  streamEpoch : Option UInt64
  eventId : Text
  deriving DecidableEq

structure SourceMaintenanceResult where
  examined : Nat
  removed : Nat
  reachedEnd : Bool
  deriving DecidableEq

/-! ## Checks -/

def isId (segment : Text) : Bool := segment.bytes != [] && segment.bytes.length ≤ maxIdBytes

def i64Max : Int := 2 ^ 63 - 1

def eventExpiresAt (decisionAtMs : Int) (dedupeWindowMs : UInt64) : Int :=
  min (decisionAtMs + dedupeWindowMs.toNat) i64Max

def validateClaim (claim : SourceClaim) : SourceResult Unit :=
  if claim.scopeEpoch = 0 ∨ claim.streamEpoch = some 0 then aborted "Source scope epoch is invalid"
  else if [claim.installationId, claim.projectionId, claim.eventId].all isId then .ok ()
  else aborted "Source identity is invalid"

def validateStreamScope (stream : SourceStreamScope) : SourceResult Unit :=
  if stream.scopeEpoch = 0 then aborted "Source scope epoch is invalid"
  else if [stream.installationId, stream.projectionId, stream.streamId].all isId then .ok ()
  else aborted "Source stream identity is invalid"

def sinkFits (sink : Path) : Bool := sink.canonicalLen.any (· ≤ maxSinkPathBytes)

def validateCommit (request : SourceCommit) : SourceResult Unit :=
  match validateClaim request.claim with
  | .error e => .error e
  | .ok () =>
    if request.claim.streamEpoch ≠ request.stream.map SourceStreamPosition.streamEpoch then
      aborted "Source claim and stream epochs differ"
    else if request.stream.any (fun stream => !isId stream.streamId) then
      aborted "Source stream identity is invalid"
    else if request.sink.scheme != "state" || !request.sink.isConcrete
        || !sinkFits request.sink then
      aborted "Source sink path is invalid"
    else if request.maxInlinePayloadBytes = 0
        ∨ maxInlinePayloadBytes < request.maxInlinePayloadBytes then
      aborted "Source inline payload budget is invalid"
    else .ok ()

inductive SourceAdmissionError
  | invalid (field : Text)
  | limitExceeded (field : Text) (max : Nat)
  deriving DecidableEq

def SourceAdmissionError.text : SourceAdmissionError → Text
  | .invalid field => "Source " ++ field ++ " is invalid"
  | .limitExceeded field max =>
    "Source " ++ field ++ " exceeds maximum " ++ Nat.toDigits 10 max

def validateBuiltinSource (installationId projectionId : Text) (source : EventSource) :
    Except SourceAdmissionError Unit :=
  if installationId.bytes = [] then .error (.invalid "installation_id")
  else if maxIdBytes < installationId.bytes.length then
    .error (.limitExceeded "installation_id bytes" maxIdBytes)
  else if projectionId.bytes = [] then .error (.invalid "projection_id")
  else if maxIdBytes < projectionId.bytes.length then
    .error (.limitExceeded "projection_id bytes" maxIdBytes)
  else if source.sink.cluster.isSome || source.sink.scheme != "state"
      || !source.sink.isConcrete then .error (.invalid "sink path")
  else if !sinkFits source.sink then .error (.limitExceeded "sink path bytes" maxSinkPathBytes)
  else if source.maxInlinePayloadBytes = 0 then .error (.invalid "inline payload byte budget")
  else if maxInlinePayloadBytes < source.maxInlinePayloadBytes then
    .error (.limitExceeded "inline payload bytes" maxInlinePayloadBytes)
  else if source.capacity.maxEvents = 0 then .error (.invalid "sink event capacity")
  else if maxSinkEvents < source.capacity.maxEvents.toNat then
    .error (.limitExceeded "sink events" maxSinkEvents)
  else if maxDeclaredSinkBytes < source.capacity.maxEvents.toNat * source.maxInlinePayloadBytes then
    .error (.limitExceeded "declared sink bytes" maxDeclaredSinkBytes)
  else
    match source.rateLimit with
    | none => .ok ()
    | some rate =>
      if rate.windowMs = 0 then .error (.invalid "rate window_ms")
      else if rate.maxEvents = 0 then .error (.invalid "rate hits")
      else if maxRateHits < rate.maxEvents.toNat then
        .error (.limitExceeded "rate hits" maxRateHits)
      else .ok ()

end Xolotl.Source
