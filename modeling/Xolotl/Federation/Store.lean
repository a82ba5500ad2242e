import Xolotl.Federation.Types

/-! The reference store: its state behind one lock, the decision a bound view checks there, and the
authority rows. -/

namespace Xolotl.Federation

open Word

/-! ## State -/

structure PeerAuthority where
  revision : Nat
  enabled : Bool
  deriving DecidableEq

structure ExportAuthority where
  revision : Nat
  access : ExportAccess
  deriving DecidableEq

structure SubjectGrantRow where
  revision : Nat
  grant : SubjectGrant
  floor : Nat
  deriving DecidableEq

structure PublishedStream where
  spec : StreamSpec
  records : List Record
  requests : Table (Nat × RequestId) Position
  retryEpoch : Nat
  head : Option Position
  minimumAvailable : Nat
  retiredThrough : Option Position
  deriving DecidableEq

structure PublishedSubscription where
  request : OpenRequest
  subject : FederationSubject
  result : OpenResult
  acknowledged : Option Position
  closedRevision : Option Nat
  deriving DecidableEq

structure ReceivedSubscription where
  opened : OpenResult
  localAuthority : AuthorityRevision
  inbox : List Record
  received : Option Position
  projected : Option Position
  retiredThrough : Option Position
  deriving DecidableEq

structure ReplicaMember where
  spec : ReplicaMemberSpec
  revision : Nat
  retired : Bool
  deriving DecidableEq

structure State where
  publishIdLimit : Nat
  publishIdCount : Nat
  trustedTimeMs : Nat
  peers : Table FederationNodeId PeerAuthority
  admissions : Table FederationNodeId (Nat × PeerAdmission)
  exports : Table (FederationNodeId × ExportName) ExportAuthority
  subjectGrants : Table (HostedSubject × FederationNodeId × StreamRef) SubjectGrantRow
  streams : Table StreamRef PublishedStream
  objectTrustedTimeMs : Nat
  publishedSubscriptions : Table SubscriptionRef PublishedSubscription
  openRequests : Table (FederationNodeId × RequestId) OpenResult
  closeRequests : Table (FederationNodeId × RequestId)
    (CloseSubscriptionRequest × CloseSubscriptionResult)
  controlRevisions : Table FederationNodeId Nat
  receivedSubscriptions : Table SubscriptionRef ReceivedSubscription
  replicaMembers : Table (StreamRef × FederationNodeId) ReplicaMember
  deriving DecidableEq

def State.new (publishIdLimit : Nat) : State :=
  ⟨publishIdLimit, 0, 0, ∅, ∅, ∅, ∅, ∅, 0, ∅, ∅, ∅, ∅, ∅, ∅⟩

/-! ## Decisions -/

structure VerifiedFederationPeerProof where
  node : FederationNodeId
  onlineGeneration : Nat
  notBeforeMs : Nat
  expiresMs : Nat
  authorizationDigest : FixedBytes 48
  deriving DecidableEq

inductive FederationAdmission
  | private_ | unconfigured
  deriving DecidableEq

structure FederationDecision where
  proof : VerifiedFederationPeerProof
  admission : FederationAdmission
  unconfiguredPolicy : Option PeerAdmission
  deriving DecidableEq

namespace FederationDecision

variable (decision : FederationDecision)

def peer : FederationNodeId := decision.proof.node

def admits (policy : PeerAdmission) : Bool :=
  policy.minimumOnlineGeneration ≤ decision.proof.onlineGeneration
    && policy.allowedAuthorizationDigests.contains decision.proof.authorizationDigest

def check (enabled : Option Bool) (policy : Option PeerAdmission)
    (trustedFloorMs nowMs : Nat) : Result Unit :=
  if nowMs < trustedFloorMs then .error .clockRollback
  else if nowMs < decision.proof.notBeforeMs ∨ decision.proof.expiresMs ≤ nowMs then
    .error .unauthorized
  else
    match decision.admission with
    | .private_ =>
      match policy with
      | none => .error .unauthorized
      | some policy =>
        if enabled = some true ∧ decision.admits policy = true then .ok () else .error .unauthorized
    | .unconfigured =>
      if enabled.isSome then .error .unauthorized
      else if decision.unconfiguredPolicy.all decision.admits then .ok ()
      else .error .unauthorized

end FederationDecision

/-- A handle of the store, perhaps bound to a remote peer's decision. Handles share the state. -/
structure MemoryFederationStore where
  localNode : FederationNodeId
  decision : Option FederationDecision
  deriving DecidableEq

abbrev Clock := Result Nat

namespace MemoryFederationStore

variable (store : MemoryFederationStore)

def lock (clock : Clock) (state : State) : Result Unit × State :=
  match store.decision with
  | none => (.ok (), state)
  | some decision =>
    match clock with
    | .error e => (.error e, state)
    | .ok nowMs =>
      (decision.check ((state.peers.get decision.peer).map PeerAuthority.enabled)
        ((state.admissions.get decision.peer).map Prod.snd) state.trustedTimeMs nowMs,
        { state with trustedTimeMs := max state.trustedTimeMs nowMs })

/-- The delivery check enters the lock without moving the trusted time. -/
def deliveryLock (clock : Clock) (fallbackMs : Nat) (state : State) : Result Nat :=
  match store.decision with
  | some decision => do
    let nowMs ← clock
    decision.check ((state.peers.get decision.peer).map PeerAuthority.enabled)
      ((state.admissions.get decision.peer).map Prod.snd) state.trustedTimeMs nowMs
    return nowMs
  | none =>
    let nowMs := if fallbackMs = 0 then state.trustedTimeMs else fallbackMs
    if nowMs < state.trustedTimeMs then .error .clockRollback else .ok nowMs

def decisionTime (state : State) (fallback : Nat) : Nat :=
  if store.decision.isSome then state.trustedTimeMs else fallback

def decisionPeer (peer : FederationNodeId) : Result Unit :=
  if store.decision.all (fun decision => decision.peer = peer) then .ok () else .error .unauthorized

end MemoryFederationStore

/-- Run a transaction under the lock; what it changes is kept only if it succeeds. -/
def locked {α : Type} (store : MemoryFederationStore) (clock : Clock) (state : State)
    (body : State → Result (α × State)) : Result α × State :=
  match store.lock clock state with
  | (.error e, state) => (.error e, state)
  | (.ok (), state) =>
    match body state with
    | .error e => (.error e, state)
    | .ok (answer, state') => (.ok answer, state')

def guarded {α : Type} (check : Result Unit) (state : State) (body : Result α × State) :
    Result α × State :=
  match check with
  | .error e => (.error e, state)
  | .ok () => body

def require (condition : Prop) [Decidable condition] (e : FederationError) : Result Unit :=
  if condition then .ok () else .error e

def orError {α : Type} (x : Option α) (e : FederationError) : Result α :=
  match x with
  | none => .error e
  | some a => .ok a

/-! ## Authority rows -/

def nextRevision (current expected : Option Nat) : Result Nat :=
  if current ≠ expected then .error .conflict
  else
    match current with
    | none => .ok 1
    | some revision => orError (checkedSucc revision) .capacity

def authority (state : State) (peer : FederationNodeId) (exportName : ExportName) (serve : Bool) :
    Result AuthorityRevision := do
  let peerAuthority ← orError (state.peers.get peer) .unauthorized
  let exportAuthority ← orError (state.exports.get (peer, exportName)) .unauthorized
  let allowed := if serve then exportAuthority.access.serve else exportAuthority.access.receive
  require (peerAuthority.enabled = true ∧ allowed = true) .unauthorized
  return ⟨peerAuthority.revision, exportAuthority.revision⟩

def subjectAuthority (state : State) (subject : FederationSubject) (presenter : FederationNodeId)
    (stream : StreamRef) (exportName : ExportName) (nowMs : Nat) :
    Result (AuthorityRevision × Nat) := do
  match subject with
  | .node node =>
    require (node = presenter) .unauthorized
    let current ← authority state presenter exportName true
    return (current, 0)
  | .hosted hosted =>
    let peer ← orError (state.peers.get presenter) .unauthorized
    let row ← orError (state.subjectGrants.get (hosted, presenter, stream)) .unauthorized
    require (peer.enabled = true ∧ row.grant.enabled = true ∧ row.grant.notBeforeMs ≤ nowMs
      ∧ nowMs < row.grant.expiresMs) .unauthorized
    return (⟨peer.revision, row.revision⟩, row.floor)

section Operations

variable (store : MemoryFederationStore) (clock : Clock) (state : State) (peer : FederationNodeId)
  (expectedRevision : Option Nat)

def setPeerAdmission (admission : PeerAdmission) : Result Nat × State :=
  guarded admission.validate state <| locked store clock state fun state => do
    require (state.peers.contains peer = true) .notFound
    let current := state.admissions.get peer
    require (∀ previous ∈ current,
      previous.2.minimumOnlineGeneration ≤ admission.minimumOnlineGeneration) .conflict
    let next ← nextRevision (current.map Prod.fst) expectedRevision
    return (next, { state with admissions := state.admissions.set peer (next, admission) })

def setPeerAuthority (enabled : Bool) : Result Nat × State :=
  guarded (require (peer ≠ store.localNode) (.invalid "peer cannot be local node")) state <|
    locked store clock state fun state => do
      let next ← nextRevision ((state.peers.get peer).map PeerAuthority.revision) expectedRevision
      return (next, { state with peers := state.peers.set peer ⟨next, enabled⟩ })

def setExportAuthority (exportName : ExportName)
    (expectedRevision : Option Nat) (access : ExportAccess) : Result Nat × State :=
  guarded (require (peer ≠ store.localNode) (.invalid "peer cannot be local node")) state <|
    locked store clock state fun state => do
      require (state.peers.contains peer = true) .notFound
      let current := (state.exports.get (peer, exportName)).map ExportAuthority.revision
      let next ← nextRevision current expectedRevision
      return (next, { state with exports := state.exports.set (peer, exportName) ⟨next, access⟩ })

def sequenceOrZero (position : Option Position) : Nat := (position.map Position.sequence).getD 0

def setSubjectGrant (grant : SubjectGrant) : Result Nat × State :=
  guarded (grant.validate store.localNode) state <| locked store clock state fun state => do
    require (state.peers.contains grant.presenter = true) .notFound
    let stream ← orError (state.streams.get grant.stream) .notFound
    let floor :=
      match grant.history with
      | .all => 0
      | .fromGrant => sequenceOrZero stream.head
    let key := (grant.subject, grant.presenter, grant.stream)
    let current := (state.subjectGrants.get key).map SubjectGrantRow.revision
    let revision ← nextRevision current expectedRevision
    return (revision,
      { state with subjectGrants := state.subjectGrants.set key ⟨revision, grant, floor⟩ })

end Operations

end Xolotl.Federation
