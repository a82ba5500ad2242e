import Xolotl.Lib.Fallible
import Xolotl.Lib.Machine
import Xolotl.Federation.Receive
import Xolotl.Federation.Replicate

/-! Histories of the reference store: any sequence of its operations through any handles, and what
one call can do to the shared state. -/

namespace Xolotl.Federation

open Word Fallible

/-! ## Calls -/

inductive Request
  | setPeerAdmission (peer : FederationNodeId) (expectedRevision : Option Nat)
      (admission : PeerAdmission)
  | setPeerAuthority (peer : FederationNodeId) (expectedRevision : Option Nat) (enabled : Bool)
  | setExportAuthority (peer : FederationNodeId) (exportName : ExportName)
      (expectedRevision : Option Nat) (access : ExportAccess)
  | setSubjectGrant (expectedRevision : Option Nat) (grant : SubjectGrant)
  | declareStream (spec : StreamSpec)
  | appendPublished (request : PublishRequest)
  | publicationEpoch (stream : StreamRef)
  | closePublicationEpoch (stream : StreamRef) (expected : Nat)
  | inspectPublication (stream : StreamRef) (retryEpoch : Nat) (publishId : RequestId)
  | retirePublicationIdentities (receipts : List PublicationReceipt)
  | retirePublishedHistory (stream : StreamRef) (through : Position) (maxRecords : Nat)
  | openAs (subject : FederationSubject) (nowMs : Nat) (request : OpenRequest)
  | inspectSubscriptionAs (subject : FederationSubject) (nowMs : Nat)
      (request : InspectSubscriptionRequest)
  | closeSubscriptionAs (subject : FederationSubject) (nowMs : Nat)
      (request : CloseSubscriptionRequest)
  | readAs (subject : FederationSubject) (nowMs : Nat) (request : ReadRequest)
  | acknowledgeAs (subject : FederationSubject) (nowMs : Nat) (request : AcknowledgeRequest)
  | authorizeSubscriptionDelivery (subject : FederationSubject)
      (request : InspectSubscriptionRequest) (payload : Bool) (nowMs : Nat)
  | joinReplica (spec : ReplicaMemberSpec) (expectedRevision : Option Nat) (nowMs : Nat)
  | extendReplica (stream : StreamRef) (member : FederationNodeId) (expectedRevision : Nat)
      (term : ReplicaRetentionTerm) (nowMs : Nat)
  | retireReplica (stream : StreamRef) (member : FederationNodeId) (expectedRevision nowMs : Nat)
  | retireReplicaSafeHistory (stream : StreamRef) (nowMs maxRecords : Nat)
  | installSubscription (request : InstallSubscriptionRequest)
  | accept (request : AcceptRequest)
  | readInbox (request : InboxReadRequest)
  | recordProjectionProgress (request : ProjectionProgress)
  | retireProjectedInbox (subscription : SubscriptionRef) (maxRecords : Nat)
  /-- The operations on objects and public policies share the lock and its two clocks. -/
  | elsewhere (trustedTimeMs objectTrustedTimeMs : Nat)

structure Call where
  decision : Option FederationDecision
  clock : Clock
  request : Request

inductive Answer
  | done
  | revision (revision : Nat)
  | record (record : Record)
  | evidence (position : Option Position)
  | released (removed : Nat)
  | retirement (retirement : PublishedRetirement)
  | opened (result : OpenResult)
  | inspection (inspection : SubscriptionInspection)
  | closed (result : CloseSubscriptionResult)
  | page (page : ReadPage)
  | acknowledged (position : Position)
  | member (view : ReplicaMemberView)
  | accepted (result : AcceptResult)
  | inbox (page : InboxReadPage)
  | projected (position : Position)
  | inboxRetirement (retirement : InboxRetirement)
  deriving DecidableEq

def answering {α : Type} (answer : α → Answer) (r : Result α × State) : Result Answer × State :=
  (r.1.map answer, r.2)

section Store

variable (sha384 : Hash) (localNode : FederationNodeId)

def step (s : State) (call : Call) : Result Answer × State :=
  let store : MemoryFederationStore := ⟨localNode, call.decision⟩
  match call.request with
  | .setPeerAdmission peer expected admission =>
    answering .revision (setPeerAdmission store call.clock s peer expected admission)
  | .setPeerAuthority peer expected enabled =>
    answering .revision (setPeerAuthority store call.clock s peer expected enabled)
  | .setExportAuthority peer exportName expected access =>
    answering .revision (setExportAuthority store call.clock s peer exportName expected access)
  | .setSubjectGrant expected grant =>
    answering .revision (setSubjectGrant store call.clock s expected grant)
  | .declareStream spec => answering (fun _ => .done) (declareStream store call.clock s spec)
  | .appendPublished request =>
    answering .record (appendPublished sha384 store call.clock s request)
  | .publicationEpoch stream => answering .revision (publicationEpoch store call.clock s stream)
  | .closePublicationEpoch stream expected =>
    answering .revision (closePublicationEpoch store call.clock s stream expected)
  | .inspectPublication stream retryEpoch publishId =>
    answering .evidence (inspectPublication store call.clock s stream retryEpoch publishId)
  | .retirePublicationIdentities receipts =>
    answering .released (retirePublicationIdentities store call.clock s receipts)
  | .retirePublishedHistory stream through maxRecords =>
    answering .retirement (retirePublishedHistory store call.clock s stream through maxRecords)
  | .openAs subject nowMs request =>
    answering .opened (openAs store call.clock s subject nowMs request)
  | .inspectSubscriptionAs subject nowMs request =>
    answering .inspection (inspectSubscriptionAs store call.clock s subject nowMs request)
  | .closeSubscriptionAs subject nowMs request =>
    answering .closed (closeSubscriptionAs store call.clock s subject nowMs request)
  | .readAs subject nowMs request =>
    answering .page (readAs store call.clock s subject nowMs request)
  | .acknowledgeAs subject nowMs request =>
    answering .acknowledged (acknowledgeAs store call.clock s subject nowMs request)
  | .authorizeSubscriptionDelivery subject request payload nowMs =>
    answering (fun _ => .done)
      (authorizeSubscriptionDelivery store call.clock s subject request payload nowMs)
  | .joinReplica spec expected nowMs =>
    answering .member (joinReplica store call.clock s spec expected nowMs)
  | .extendReplica stream member expected term nowMs =>
    answering .member (extendReplica store call.clock s stream member expected term nowMs)
  | .retireReplica stream member expected nowMs =>
    answering .member (retireReplica store call.clock s stream member expected nowMs)
  | .retireReplicaSafeHistory stream nowMs maxRecords =>
    answering .retirement (retireReplicaSafeHistory store call.clock s stream nowMs maxRecords)
  | .installSubscription request =>
    answering .opened (installSubscription store call.clock s request)
  | .accept request => answering .accepted (accept store call.clock s request)
  | .readInbox request => answering .inbox (readInbox store call.clock s request)
  | .recordProjectionProgress request =>
    answering .projected (recordProjectionProgress store call.clock s request)
  | .retireProjectedInbox subscription maxRecords =>
    answering .inboxRetirement (retireProjectedInbox store call.clock s subscription maxRecords)
  | .elsewhere trustedTimeMs objectTrustedTimeMs =>
    (.ok .done,
      { s with trustedTimeMs := trustedTimeMs, objectTrustedTimeMs := objectTrustedTimeMs })

def run (s : State) (calls : List Call) : State := Machine.run (step sha384 localNode) s calls

/-- What a call adds to the world for good. -/
inductive Event
  | published (request : PublishRequest) (record : Record)
  | accepted (subscription : SubscriptionRef) (record : Record)
  deriving DecidableEq

def recordCount (s : State) (stream : StreamRef) : Nat :=
  ((s.streams.get stream).map fun row => row.records.length).getD 0

/-- An append that extends its stream publishes; an accept that says so extends its inbox. -/
def events (s : State) (call : Call) : List Event :=
  match call.request, step sha384 localNode s call with
  | .appendPublished request, (.ok (.record record), s') =>
    if recordCount s request.stream < recordCount s' request.stream then
      [.published request record]
    else []
  | .accept request, (.ok (.accepted answer), _) =>
    if answer.newlyAccepted then [.accepted request.subscription request.record] else []
  | _, _ => []

def log (s : State) (calls : List Call) : List Event :=
  Machine.collect (step sha384 localNode) (events sha384 localNode) s calls

end Store

/-! ## Transactions -/

def State.sampled (s : State) (trustedTimeMs : Nat) : State :=
  { s with trustedTimeMs := trustedTimeMs }

@[simp] theorem require_ok {condition : Prop} [Decidable condition] {e : FederationError}
    {u : Unit} : require condition e = .ok u ↔ condition := by
  unfold require
  split <;> simp [*]

@[simp] theorem orError_ok {α : Type} {x : Option α} {e : FederationError} {a : α} :
    orError x e = .ok a ↔ x = some a := by
  cases x <;> simp [orError]

theorem checkedSucc_eq_some {n next : Nat} :
    checkedSucc n = some next ↔ n < u64Max ∧ next = n + 1 := by
  unfold checkedSucc
  split <;> simp [*, eq_comm]

theorem lock_state (store : MemoryFederationStore) (clock : Clock) (s : State) :
    ∃ t, (store.lock clock s).2 = s.sampled t := by
  unfold MemoryFederationStore.lock
  split
  · exact ⟨s.trustedTimeMs, rfl⟩
  · split
    · exact ⟨s.trustedTimeMs, rfl⟩
    · exact ⟨_, rfl⟩

/-- A transaction fails, and at most moves the trusted time, or its body has succeeded. -/
inductive Transacted {α : Type} (check : Result Unit) (s : State)
    (body : State → Result (α × State)) : Result α × State → Prop
  | failed (e : FederationError) (t : Nat) : Transacted check s body (.error e, s.sampled t)
  | done {t : Nat} {a : α} {s' : State} (hcheck : check = .ok ())
      (hbody : body (s.sampled t) = .ok (a, s')) : Transacted check s body (.ok a, s')

theorem transacted {α : Type} (check : Result Unit) (store : MemoryFederationStore) (clock : Clock)
    (s : State) (body : State → Result (α × State)) :
    Transacted check s body (guarded check s (locked store clock s body)) := by
  cases check with
  | error e => exact .failed e s.trustedTimeMs
  | ok u =>
    obtain ⟨t, ht⟩ := lock_state store clock s
    rw [locked]
    rcases hl : store.lock clock s with ⟨answer, s₁⟩
    rw [hl] at ht
    subst ht
    cases answer with
    | error e => exact .failed e t
    | ok u =>
      dsimp only
      cases hb : body (s.sampled t) with
      | error e => exact .failed e t
      | ok result => exact .done rfl hb

/-! ## Sample values -/

namespace Sample

def fixed (length : Nat) (byte : UInt8) : FixedBytes length :=
  ⟨List.replicate length byte, List.length_replicate⟩

def node (byte : UInt8) : FederationNodeId := ⟨fixed 48 byte⟩

def here : FederationNodeId := node 1

def stream : StreamRef := ⟨here, ⟨fixed 16 1⟩⟩

def exportName : ExportName := ⟨"news", by decide⟩

def checksum : Hash := fun bytes => ⟨fixed 48 (bytes.foldl (· + ·) 0)⟩

theorem post_valid : validName "post" = true := by decide

def publish (epoch : Nat) (id payload : UInt8) : PublishRequest :=
  ⟨stream, epoch, ⟨fixed 16 id⟩, ⟨"post", post_valid⟩, ⟨fixed 32 0⟩, none, [payload]⟩

def own (request : Request) : Call := ⟨none, .error .trustedTimeUnavailable, request⟩

end Sample

end Xolotl.Federation
