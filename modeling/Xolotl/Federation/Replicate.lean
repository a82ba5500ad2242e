import Xolotl.Federation.Subscribe

/-! Replica commitments: the frontier of the members that still bind a stream, and the retirement of
published history, on request and by safe maintenance. -/

namespace Xolotl.Federation

open Word

variable (state : State)

def checkTime (nowMs : Nat) : Result Unit :=
  require (state.objectTrustedTimeMs ≤ nowMs) .clockRollback

def validateTerm (term : ReplicaRetentionTerm) (nowMs : Nat) : Result Unit := do
  match term with
  | .permanent => return ()
  | .leaseUntilMs deadline =>
    require (nowMs ≤ deadline) .conflict
    require (deadline - nowMs ≠ 0 ∧ deadline - nowMs ≤ maxReplicaLeaseMs)
      (.invalid "invalid replica lease deadline")

/-! ## Frontiers -/

def PublishedSubscription.bindsReplica (row : PublishedSubscription) (stream : StreamRef)
    (member : FederationNodeId) (subscription : SubscriptionRef) : Bool :=
  subscription.subscriber = member && row.result.subscription = subscription
    && row.result.stream = stream && row.request.subscription = subscription
    && row.request.stream = stream && row.request.authenticatedSubscriber = member
    && row.subject = .node member

variable (stream : StreamRef)

def subscriptionReceipt (member : FederationNodeId)
    (subscription : SubscriptionRef) (requireLive : Bool) :
    Result (Option Position × Option Position) := do
  let row ← orError (state.publishedSubscriptions.get subscription) .corrupt
  require (row.bindsReplica stream member subscription = true) .corrupt
  require (requireLive = false ∨ row.closedRevision = none) .conflict
  require (∀ ack ∈ row.acknowledged, ∀ start ∈ row.result.start, start.sequence < ack.sequence)
    .corrupt
  return (row.result.start, row.acknowledged)

def ReplicaMember.view (member : ReplicaMember) : Result ReplicaMemberView := do
  let (baseline, acknowledged) ← subscriptionReceipt state member.spec.stream member.spec.member
    member.spec.subscription false
  return ⟨member.spec, member.revision, baseline, acknowledged, none, member.retired⟩

def ReplicaMember.expired (member : ReplicaMember) (nowMs : Nat) : Bool :=
  match member.spec.term with
  | .permanent => false
  | .leaseUntilMs deadline => !member.retired && deadline ≤ nowMs

def lowerFrontier (lowest : Option (Option Position)) (frontier : Option Position) :
    Option Position :=
  match lowest, frontier with
  | none, frontier => frontier
  | some none, _ => none
  | some (some _), none => none
  | some (some old), some current =>
    if old.sequence ≤ current.sequence then some old else some current

/-- One pass over the members; those of other streams, retired ones and expired ones do not bind. -/
def scanFrontier (state : State) (stream : StreamRef) (expiryAt : Option Nat) :
    List ((StreamRef × FederationNodeId) × ReplicaMember) → Nat → Option (Option Position) →
    Result (Option (Option Position))
  | [], _, lowest => .ok lowest
  | (key, member) :: rest, count, lowest =>
    if key.1 ≠ stream then scanFrontier state stream expiryAt rest count lowest
    else if maxReplicaMembers < count + 1 ∨ member.revision = 0 then .error .corrupt
    else if member.retired = true ∨ expiryAt.any member.expired = true then
      scanFrontier state stream expiryAt rest (count + 1) lowest
    else do
      let view ← member.view state
      scanFrontier state stream expiryAt rest (count + 1)
        (some (lowerFrontier lowest (view.acknowledged.or view.baseline)))

/-- The lowest frontier of the members that bind a stream, if any does. Only safe maintenance passes
a time at which expired leases no longer bind. -/
def activeFrontier (expiryAt : Option Nat) : Result (Option (Option Position)) :=
  scanFrontier state stream expiryAt state.replicaMembers.rows 0 none

def permittedThrough (through : Position) (expiryAt : Option Nat) : Result Unit := do
  match ← activeFrontier state stream expiryAt with
  | none => return ()
  | some none => .error .conflict
  | some (some frontier) =>
    require (through.sequence ≤ frontier.sequence
      ∧ (through.sequence = frontier.sequence → through.digest = frontier.digest)) .conflict

/-! ## Retirement -/

structure RetirePlan where
  stream : StreamRef
  through : Option Position
  head : Option Position
  next : Nat
  count : Nat
  deriving DecidableEq

def payloadBytes : List Record → Nat → Result Nat
  | [], used => .ok used
  | record :: rest, used =>
    if u64Max < used + record.payload.length then .error .capacity
    else payloadBytes rest (used + record.payload.length)

def planRetirement (localNode : FederationNodeId) (stream : StreamRef)
    (through : Position) (maxRecords : Nat) (expiryAt : Option Nat) : Result RetirePlan := do
  require (stream.publisher = localNode) .unauthorized
  require (maxRecords ≠ 0 ∧ maxRecords ≤ maxRetireRecords) .capacity
  let published ← orError (state.streams.get stream) .notFound
  if published.retiredThrough = some through then
    return ⟨stream, published.retiredThrough, published.head, published.minimumAvailable, 0⟩
  else
    permittedThrough state stream through expiryAt
    published.locate through
    require (published.minimumAvailable ≤ through.sequence
      ∧ through.sequence - published.minimumAvailable < u64Max) .capacity
    let count := through.sequence - published.minimumAvailable + 1
    require (count ≤ maxRecords) .capacity
    let bytes ← payloadBytes (published.records.take count) 0
    require (bytes ≤ maxRetireBytes) .capacity
    let next ← orError (checkedSucc through.sequence) .capacity
    return ⟨stream, some through, published.head, next, count⟩

def PublishedStream.retire (published : PublishedStream) (plan : RetirePlan) : PublishedStream :=
  { published with
    records := published.records.drop plan.count
    minimumAvailable := plan.next
    retiredThrough := plan.through }

def RetirePlan.retirement (plan : RetirePlan) : PublishedRetirement :=
  ⟨plan.stream, plan.head, plan.next, plan.through, plan.count⟩

def applyRetirement (plan : RetirePlan) : Result (PublishedRetirement × State) := do
  if plan.count ≠ 0 then
    let published ← orError (state.streams.get plan.stream) .corrupt
    return (plan.retirement,
      { state with streams := state.streams.set plan.stream (published.retire plan) })
  else return (plan.retirement, state)

def retireExplicit (localNode : FederationNodeId) (stream : StreamRef) (through : Position)
    (maxRecords : Nat) (state : State) : Result (PublishedRetirement × State) := do
  let plan ← planRetirement state localNode stream through maxRecords none
  applyRetirement state plan

def expiries (stream : StreamRef) (nowMs : Nat) :
    List ((StreamRef × FederationNodeId) × ReplicaMember) →
    Result (List ((StreamRef × FederationNodeId) × Nat))
  | [] => .ok []
  | (key, member) :: rest =>
    if key.1 = stream ∧ member.expired nowMs = true then do
      let revision ← orError (checkedSucc member.revision) .capacity
      let others ← expiries stream nowMs rest
      return (key, revision) :: others
    else expiries stream nowMs rest

def expireMembers : List ((StreamRef × FederationNodeId) × Nat) →
    Table (StreamRef × FederationNodeId) ReplicaMember →
    Result (Table (StreamRef × FederationNodeId) ReplicaMember)
  | [], members => .ok members
  | (key, revision) :: rest, members => do
    let member ← orError (members.get key) .corrupt
    expireMembers rest (members.set key { member with revision := revision, retired := true })

/-- The last record maintenance may remove: up to the end, within the byte limit. -/
def lastSafe (stop : Nat) : List Record → Nat → Option Position → Result (Option Position)
  | [], _, last => .ok last
  | record :: rest, bytes, last =>
    if stop < record.sequence then .ok last
    else
      let next := bytes + record.payload.length
      if u64Max < next then .error .capacity
      else if maxRetireBytes < next then .ok last
      else lastSafe stop rest next (some record.position)

/-- Where maintenance has to stop: at the head, at the frontier and within the record limit. -/
def safeEnd (published : PublishedStream) (frontier : Option (Option Position)) (maxRecords : Nat) :
    Nat :=
  let stop := sequenceOrZero published.head
  let stop :=
    match frontier with
    | none => stop
    | some frontier => min stop (sequenceOrZero frontier)
  min stop (min u64Max (published.minimumAvailable + (maxRecords - 1)))

section Operations

variable (store : MemoryFederationStore) (clock : Clock) (state : State) (stream : StreamRef)

def retirePublishedHistory (through : Position) (maxRecords : Nat) :
    Result PublishedRetirement × State :=
  locked store clock state (retireExplicit store.localNode stream through maxRecords)

def joinRevision (previous : Option ReplicaMember) (spec : ReplicaMemberSpec)
    (expectedRevision : Option Nat) : Result Nat := do
  match previous, expectedRevision with
  | none, none => return 1
  | some previous, some expected =>
    require (previous.retired = true ∧ previous.revision = expected
      ∧ previous.spec.subscription ≠ spec.subscription) .conflict
    orError (checkedSucc previous.revision) .capacity
  | _, _ => .error .conflict

variable (spec : ReplicaMemberSpec) (expectedRevision : Option Nat) (nowMs : Nat)

def joinLocked (state : State) : Result (ReplicaMemberView × State) := do
  checkTime state nowMs
  let stream ← orError (state.streams.get spec.stream) .notFound
  let previous := state.replicaMembers.get (spec.stream, spec.member)
  let revision ← joinRevision previous spec expectedRevision
  require (previous.isSome = true
    ∨ state.replicaMembers.rows.countP (fun row => row.1.1 = spec.stream) < maxReplicaMembers)
    .capacity
  let (baseline, acknowledged) ←
    subscriptionReceipt state spec.stream spec.member spec.subscription true
  let frontier := acknowledged.or baseline
  require (stream.minimumAvailable - 1 ≤ sequenceOrZero frontier)
    (.resyncRequired stream.minimumAvailable)
  require (∀ position ∈ frontier, ∀ anchor ∈ stream.retiredThrough,
    position.sequence = anchor.sequence → position.digest = anchor.digest) .conflict
  let subscription ← orError (state.publishedSubscriptions.get spec.subscription) .corrupt
  let current ← authority state spec.member subscription.result.exportName true
  require (current = subscription.result.publisherAuthority) .conflict
  return (⟨spec, revision, baseline, acknowledged, none, false⟩,
    { state with
      replicaMembers := state.replicaMembers.set (spec.stream, spec.member) ⟨spec, revision, false⟩
      objectTrustedTimeMs := nowMs })

def joinReplica : Result ReplicaMemberView × State :=
  guarded (do
      require (spec.stream.publisher = store.localNode ∧ spec.member ≠ store.localNode
        ∧ spec.subscription.subscriber = spec.member) .unauthorized
      validateTerm spec.term nowMs)
    state <| locked store clock state fun state =>
      joinLocked spec expectedRevision (store.decisionTime state nowMs) state

def termExtends (old term : ReplicaRetentionTerm) (nowMs : Nat) : Bool :=
  match old, term with
  | .permanent, .permanent => true
  | .permanent, .leaseUntilMs _ => false
  | .leaseUntilMs deadline, .permanent => nowMs < deadline
  | .leaseUntilMs deadline, .leaseUntilMs next => nowMs < deadline && deadline < next

def currentMember (state : State) (stream : StreamRef) (member : FederationNodeId)
    (expectedRevision : Nat) : Result ReplicaMember := do
  let old ← orError (state.replicaMembers.get (stream, member)) .notFound
  require (old.retired = false ∧ old.revision = expectedRevision) .conflict
  return old

def replaceMember (state : State) (stream : StreamRef) (member : FederationNodeId)
    (updated : ReplicaMember) (nowMs : Nat) : Result (ReplicaMemberView × State) := do
  let result ← updated.view state
  return (result,
    { state with
      replicaMembers := state.replicaMembers.set (stream, member) updated
      objectTrustedTimeMs := nowMs })

def extendReplica (member : FederationNodeId) (expectedRevision : Nat)
    (term : ReplicaRetentionTerm) (nowMs : Nat) : Result ReplicaMemberView × State :=
  guarded (do
      require (stream.publisher = store.localNode) .unauthorized
      validateTerm term nowMs)
    state <| locked store clock state fun state => do
      let nowMs := store.decisionTime state nowMs
      checkTime state nowMs
      let old ← currentMember state stream member expectedRevision
      require (termExtends old.spec.term term nowMs = true) .conflict
      let revision ← orError (checkedSucc old.revision) .capacity
      replaceMember state stream member
        { old with spec := { old.spec with term := term }, revision := revision } nowMs

def retireReplica (member : FederationNodeId) (expectedRevision nowMs : Nat) :
    Result ReplicaMemberView × State :=
  guarded (require (stream.publisher = store.localNode) .unauthorized) state <|
    locked store clock state fun state => do
      let nowMs := store.decisionTime state nowMs
      checkTime state nowMs
      let old ← currentMember state stream member expectedRevision
      let revision ← orError (checkedSucc old.revision) .capacity
      replaceMember state stream member { old with revision := revision, retired := true } nowMs

def applyPlan (published : PublishedStream) (stream : StreamRef) (plan : Option RetirePlan)
    (state : State) : Result (PublishedRetirement × State) :=
  match plan with
  | some plan => applyRetirement state plan
  | none =>
    .ok (⟨stream, published.head, published.minimumAvailable, published.retiredThrough, 0⟩, state)

def planSafe (state : State) (localNode : FederationNodeId) (stream : StreamRef)
    (last : Option Position) (maxRecords nowMs : Nat) : Result (Option RetirePlan) :=
  match last with
  | none => .ok none
  | some last => some <$> planRetirement state localNode stream last maxRecords (some nowMs)

/-- Safe maintenance at a time: remove what no binding member needs and commit the expiries. -/
def retireSafe (localNode : FederationNodeId) (stream : StreamRef) (nowMs maxRecords : Nat)
    (state : State) : Result (PublishedRetirement × State) := do
  checkTime state nowMs
  let published ← orError (state.streams.get stream) .notFound
  let expiry ← expiries stream nowMs state.replicaMembers.rows
  let frontier ← activeFrontier state stream (some nowMs)
  let last ← lastSafe (safeEnd published frontier maxRecords)
    (published.records.take maxRecords) 0 none
  let plan ← planSafe state localNode stream last maxRecords nowMs
  let (result, state) ← applyPlan published stream plan state
  -- the keys come from this table, so none of them is missing
  let members ← expireMembers expiry state.replicaMembers
  return (result, { state with replicaMembers := members, objectTrustedTimeMs := nowMs })

def retireReplicaSafeHistory (nowMs maxRecords : Nat) : Result PublishedRetirement × State :=
  guarded (do
      require (stream.publisher = store.localNode) .unauthorized
      require (maxRecords ≠ 0 ∧ maxRecords ≤ maxRetireRecords) .capacity)
    state <| locked store clock state fun state =>
      retireSafe store.localNode stream (store.decisionTime state nowMs) maxRecords state

end Operations

end Xolotl.Federation
