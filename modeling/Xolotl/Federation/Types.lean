import Xolotl.Lib.BigEndian
import Xolotl.Lib.Table
import Xolotl.Lib.Text
import Xolotl.Lib.Word

/-! Identities, positions, records, requests and results of the federation contract. Machine words
are natural numbers; what has to stay below their range carries the bound. -/

namespace Xolotl.Federation

open Word

def maxRetireRecords : Nat := 256
def maxRetireBytes : Nat := 64 * 1024 * 1024
def maxReplicaMembers : Nat := 64
def maxReplicaLeaseMs : Nat := 30 * 24 * 60 * 60 * 1000
def maxPublicationRetireIds : Nat := 256
def maxInboxRecords : Nat := 256
def maxInboxBytes : Nat := 4 * 1024 * 1024

inductive FederationError
  | invalid (message : Text)
  | unauthorized
  | notFound
  | conflict
  | revisionConflict
  | gap (expected received : Nat)
  | resyncRequired (minimumAvailable : Nat)
  | capacity
  | indeterminate
  | trustedTimeUnavailable
  | clockRollback
  | corrupt
  | storage (message : Text)
  deriving DecidableEq

abbrev Result (α : Type) := Except FederationError α

def checkedSucc (n : Nat) : Option Nat := if n < u64Max then some (n + 1) else none

def saturatingSucc (n : Nat) : Nat := if n < u64Max then n + 1 else u64Max

/-! ## Identities -/

structure FixedBytes (length : Nat) where
  bytes : List UInt8
  length_eq : bytes.length = length
  deriving DecidableEq

structure FederationNodeId where
  raw : FixedBytes 48
  deriving DecidableEq

structure StreamId where
  raw : FixedBytes 16
  deriving DecidableEq

structure SubscriptionId where
  raw : FixedBytes 16
  deriving DecidableEq

structure RequestId where
  raw : FixedBytes 16
  deriving DecidableEq

structure SubjectIssuerId where
  raw : FixedBytes 48
  deriving DecidableEq

structure Digest where
  raw : FixedBytes 48
  deriving DecidableEq

structure SchemaRevision where
  raw : FixedBytes 32
  deriving DecidableEq

structure StreamRef where
  publisher : FederationNodeId
  id : StreamId
  deriving DecidableEq

structure SubscriptionRef where
  subscriber : FederationNodeId
  id : SubscriptionId
  deriving DecidableEq

def isControl (c : Char) : Bool := c.toNat < 0x20 || (0x7F ≤ c.toNat && c.toNat < 0xA0)

def validName (value : Text) : Bool :=
  value.bytes.length != 0 && value.bytes.length ≤ 256 && !value.any isControl

structure ExportName where
  value : Text
  valid : validName value = true
  deriving DecidableEq

structure EventType where
  value : Text
  valid : validName value = true
  deriving DecidableEq

structure EventRef where
  origin : FederationNodeId
  space : Text
  id : Text
  valid : validName space = true ∧ validName id = true
  deriving DecidableEq

/-! ## Positions and records -/

@[ext] structure Position where
  sequence : Nat
  digest : Digest
  positive : 0 < sequence
  bounded : sequence ≤ u64Max
  deriving DecidableEq

structure RecordParts where
  stream : StreamRef
  sequence : Nat
  publishId : RequestId
  eventType : EventType
  schemaRevision : SchemaRevision
  eventRef : Option EventRef
  payload : List UInt8
  deriving DecidableEq

structure Record where
  parts : RecordParts
  payloadDigest : Digest
  digest : Digest
  positive : 0 < parts.sequence
  bounded : parts.sequence ≤ u64Max
  deriving DecidableEq

namespace Record

def stream (record : Record) : StreamRef := record.parts.stream

def sequence (record : Record) : Nat := record.parts.sequence

def payload (record : Record) : List UInt8 := record.parts.payload

def position (record : Record) : Position :=
  ⟨record.sequence, record.digest, record.positive, record.bounded⟩

end Record

abbrev Hash := List UInt8 → Digest

def putBytes (bytes : List UInt8) : Result (List UInt8) :=
  if u64Max < bytes.length then .error (.invalid "record field too large")
  else .ok (bigEndian 8 bytes.length ++ bytes)

def eventRefBytes : Option EventRef → Result (List UInt8)
  | none => .ok [0]
  | some reference => do
    let space ← putBytes reference.space.bytes
    let id ← putBytes reference.id.bytes
    return 1 :: (reference.origin.raw.bytes ++ space ++ id)

def recordDomain : List UInt8 := Text.bytes "xolotl.federation.record.v1" ++ [0]

def recordDigest (sha384 : Hash) (parts : RecordParts) (payloadDigest : Digest) :
    Result Digest := do
  let eventType ← putBytes parts.eventType.value.bytes
  let eventRef ← eventRefBytes parts.eventRef
  if u64Max < parts.payload.length then .error (.invalid "record payload too large")
  else
    return sha384 (recordDomain ++ parts.stream.publisher.raw.bytes ++ parts.stream.id.raw.bytes
      ++ bigEndian 8 parts.sequence ++ parts.publishId.raw.bytes ++ eventType
      ++ parts.schemaRevision.raw.bytes ++ eventRef ++ bigEndian 8 parts.payload.length
      ++ payloadDigest.raw.bytes)

def Record.new (sha384 : Hash) (parts : RecordParts) : Result Record :=
  if h : 0 < parts.sequence ∧ parts.sequence ≤ u64Max then do
    let payloadDigest := sha384 parts.payload
    let digest ← recordDigest sha384 parts payloadDigest
    return ⟨parts, payloadDigest, digest, h.1, h.2⟩
  else .error (.invalid "record sequence must be positive")

/-! ## Publication -/

structure PublishRequest where
  stream : StreamRef
  retryEpoch : Nat
  publishId : RequestId
  eventType : EventType
  schemaRevision : SchemaRevision
  eventRef : Option EventRef
  payload : List UInt8
  deriving DecidableEq

namespace PublishRequest

def intoParts (request : PublishRequest) (sequence : Nat) : RecordParts :=
  ⟨request.stream, sequence, request.publishId, request.eventType, request.schemaRevision,
    request.eventRef, request.payload⟩

def matchesRecord (request : PublishRequest) (record : Record) : Bool :=
  request.stream == record.stream && request.publishId == record.parts.publishId
    && request.eventType == record.parts.eventType
    && request.schemaRevision == record.parts.schemaRevision
    && request.eventRef == record.parts.eventRef && request.payload == record.payload

end PublishRequest

structure PublicationReceipt where
  stream : StreamRef
  retryEpoch : Nat
  publishId : RequestId
  position : Position
  deriving DecidableEq

structure StreamSpec where
  stream : StreamRef
  exportName : ExportName
  deriving DecidableEq

/-! ## Authority -/

structure AuthorityRevision where
  peer : Nat
  exportRevision : Nat
  deriving DecidableEq

structure ExportAccess where
  serve : Bool
  receive : Bool
  deriving DecidableEq

structure PeerAdmission where
  minimumOnlineGeneration : Nat
  allowedAuthorizationDigests : List (FixedBytes 48)
  deriving DecidableEq

def PeerAdmission.maxAuthorizations : Nat := 8

def PeerAdmission.validate (admission : PeerAdmission) : Result Unit :=
  if admission.minimumOnlineGeneration = 0 then
    .error (.invalid "minimum online generation must be positive")
  else if PeerAdmission.maxAuthorizations < admission.allowedAuthorizationDigests.length then
    .error .capacity
  else if ¬admission.allowedAuthorizationDigests.Nodup then
    .error (.invalid "duplicate online authorization digest")
  else .ok ()

structure HostedSubject where
  issuer : SubjectIssuerId
  space : Text
  subject : Text
  deriving DecidableEq

inductive FederationSubject
  | node (node : FederationNodeId)
  | hosted (subject : HostedSubject)
  deriving DecidableEq

inductive GrantHistory
  | all | fromGrant
  deriving DecidableEq

structure SubjectGrant where
  subject : HostedSubject
  presenter : FederationNodeId
  stream : StreamRef
  notBeforeMs : Nat
  expiresMs : Nat
  history : GrantHistory
  enabled : Bool
  deriving DecidableEq

def SubjectGrant.validate (grant : SubjectGrant) (localNode : FederationNodeId) : Result Unit :=
  if grant.stream.publisher ≠ localNode ∨ grant.presenter = localNode
      ∨ grant.expiresMs ≤ grant.notBeforeMs ∨ validName grant.subject.space = false
      ∨ validName grant.subject.subject = false then
    .error (.invalid "invalid subject grant")
  else .ok ()

/-! ## Subscriptions -/

inductive HistoryStart
  | all
  | after (position : Position)
  | fromNow
  deriving DecidableEq

structure OpenRequest where
  authenticatedSubscriber : FederationNodeId
  requestId : RequestId
  subscription : SubscriptionRef
  stream : StreamRef
  expectedControlRevision : Option Nat
  history : HistoryStart
  deriving DecidableEq

structure OpenResult where
  requestId : RequestId
  subscription : SubscriptionRef
  stream : StreamRef
  exportName : ExportName
  publisherAuthority : AuthorityRevision
  subscriptionRevision : Nat
  start : Option Position
  deriving DecidableEq

structure InspectSubscriptionRequest where
  authenticatedSubscriber : FederationNodeId
  subscription : SubscriptionRef
  deriving DecidableEq

structure SubscriptionInspection where
  subscription : SubscriptionRef
  stream : StreamRef
  exportName : ExportName
  subscriptionRevision : Nat
  start : Option Position
  acknowledged : Option Position
  head : Option Position
  minimumAvailable : Nat
  closed : Bool
  deriving DecidableEq

structure CloseSubscriptionRequest where
  authenticatedSubscriber : FederationNodeId
  requestId : RequestId
  subscription : SubscriptionRef
  expectedSubscriptionRevision : Option Nat
  deriving DecidableEq

structure CloseSubscriptionResult where
  requestId : RequestId
  subscription : SubscriptionRef
  subscriptionRevision : Nat
  deriving DecidableEq

structure ReadRequest where
  authenticatedSubscriber : FederationNodeId
  subscription : SubscriptionRef
  after : Option Position
  maxRecords : Nat
  maxBytes : Nat
  deriving DecidableEq

structure ReadPage where
  records : List Record
  head : Option Position
  minimumAvailable : Nat
  deriving DecidableEq

structure AcknowledgeRequest where
  authenticatedSubscriber : FederationNodeId
  subscription : SubscriptionRef
  position : Position
  deriving DecidableEq

structure InstallSubscriptionRequest where
  authenticatedPublisher : FederationNodeId
  opened : OpenResult
  deriving DecidableEq

structure AcceptRequest where
  authenticatedPublisher : FederationNodeId
  subscription : SubscriptionRef
  record : Record
  deriving DecidableEq

structure AcceptResult where
  position : Position
  newlyAccepted : Bool
  deriving DecidableEq

structure InboxReadRequest where
  subscription : SubscriptionRef
  expectedStream : StreamRef
  after : Option Position
  maxRecords : Nat
  maxBytes : Nat
  deriving DecidableEq

structure InboxReadPage where
  opened : OpenResult
  received : Option Position
  projected : Option Position
  records : List Record
  deriving DecidableEq

structure ProjectionProgress where
  subscription : SubscriptionRef
  position : Position
  deriving DecidableEq

structure InboxRetirement where
  subscription : SubscriptionRef
  received : Option Position
  projected : Option Position
  retiredThrough : Option Position
  removed : Nat
  deriving DecidableEq

/-! ## Replicas -/

inductive ReplicaRetentionTerm
  | permanent
  | leaseUntilMs (deadline : Nat)
  deriving DecidableEq

structure ReplicaMemberSpec where
  stream : StreamRef
  member : FederationNodeId
  subscription : SubscriptionRef
  term : ReplicaRetentionTerm
  deriving DecidableEq

structure ReplicaMemberView where
  spec : ReplicaMemberSpec
  revision : Nat
  baseline : Option Position
  acknowledged : Option Position
  snapshotCovered : Option Position
  retired : Bool
  deriving DecidableEq

structure PublishedRetirement where
  stream : StreamRef
  head : Option Position
  minimumAvailable : Nat
  retiredThrough : Option Position
  removed : Nat
  deriving DecidableEq

end Xolotl.Federation
