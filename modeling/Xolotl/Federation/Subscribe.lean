import Xolotl.Federation.Publish

/-! Subscriptions of remote subjects: opening, inspection, closing, reading and acknowledgement. -/

namespace Xolotl.Federation

open Word

/-- The records of a page: as many as the count and the payload bytes allow. A first record that
does not fit is refused. -/
def pageRecords (maxBytes : Nat) : List Record → Nat → List Record → Result (List Record)
  | [], _, records => .ok records
  | record :: rest, bytes, records =>
    let next := bytes + record.payload.length
    if u64Max < next then .error .capacity
    else if maxBytes < next then
      if records = [] then .error .capacity else .ok records
    else pageRecords maxBytes rest next (records ++ [record])

variable (stream : PublishedStream)

def requestedStart (history : HistoryStart) (floor : Nat) : Result (Option Position) := do
  match history with
  | .all =>
    if floor = 0 ∧ 1 < stream.minimumAvailable then
      .error (.resyncRequired stream.minimumAvailable)
    else return none
  | .after position =>
    require (floor ≤ position.sequence) .unauthorized
    stream.locate position
    return some position
  | .fromNow => return stream.head

def floorStart (floor : Nat) (start : Option Position) : Result (Option Position) :=
  if start.any (floor ≤ ·.sequence) then .ok start
  else if floor = 0 then .ok none
  else if floor < stream.minimumAvailable - 1 then
    .error (.resyncRequired stream.minimumAvailable)
  else if floor = stream.minimumAvailable - 1 then .ok stream.retiredThrough
  else do
    let record ← orError stream.records[floor - stream.minimumAvailable]? .corrupt
    return some record.position

def visibleFrom (start : Option Position) : Nat :=
  max stream.minimumAvailable ((start.map fun position => saturatingSucc position.sequence).getD 1)

section Operations

variable (store : MemoryFederationStore) (clock : Clock) (state : State)

def currentAuthority (state : State) (subject : FederationSubject) (presenter : FederationNodeId)
    (opened : OpenResult) (nowMs : Nat) : Result Unit := do
  let (current, _) ← subjectAuthority state subject presenter opened.stream opened.exportName nowMs
  require (current = opened.publisherAuthority) .conflict

variable (subject : FederationSubject) (nowMs : Nat)

def reopen (request : OpenRequest) (state : State) (previous : OpenResult) : Result OpenResult := do
  let existing ← orError (state.publishedSubscriptions.get previous.subscription) .corrupt
  require (existing.request = request ∧ existing.subject = subject) .conflict
  currentAuthority state subject request.authenticatedSubscriber previous nowMs
  return previous

def controlRevision (state : State) (subscriber : FederationNodeId) : Nat :=
  (state.controlRevisions.get subscriber).getD 0

def openNew (request : OpenRequest) (state : State) : Result (OpenResult × State) := do
  let stream ← orError (state.streams.get request.stream) .notFound
  let (current, floor) ← subjectAuthority state subject request.authenticatedSubscriber
    request.stream stream.spec.exportName nowMs
  let start ← requestedStart stream request.history floor
  let start ← floorStart stream floor start
  require (state.publishedSubscriptions.contains request.subscription = false) .conflict
  let control := controlRevision state request.authenticatedSubscriber
  require (∀ expected ∈ request.expectedControlRevision, expected = control) .conflict
  let next ← orError (checkedSucc control) .capacity
  let result : OpenResult :=
    ⟨request.requestId, request.subscription, request.stream, stream.spec.exportName, current, next,
      start⟩
  return (result,
    { state with
      controlRevisions := state.controlRevisions.set request.authenticatedSubscriber next
      openRequests :=
        state.openRequests.set (request.authenticatedSubscriber, request.requestId) result
      publishedSubscriptions := state.publishedSubscriptions.set request.subscription
        ⟨request, subject, result, none, none⟩ })

def openAs (request : OpenRequest) : Result OpenResult × State :=
  guarded (do
      store.decisionPeer request.authenticatedSubscriber
      require (request.stream.publisher = store.localNode
        ∧ request.authenticatedSubscriber = request.subscription.subscriber) .unauthorized)
    state <| locked store clock state fun state => do
      let nowMs := store.decisionTime state nowMs
      let key := (request.authenticatedSubscriber, request.requestId)
      require (state.closeRequests.contains key = false) .conflict
      match state.openRequests.get key with
      | some previous =>
        let result ← reopen subject nowMs request state previous
        return (result, state)
      | none => openNew subject nowMs request state

def ownSubscription (subscriber : FederationNodeId) (subscription : SubscriptionRef) :
    Result Unit := do
  store.decisionPeer subscriber
  require (subscriber = subscription.subscriber) .unauthorized

def subscriptionOf (state : State) (subject : FederationSubject) (subscription : SubscriptionRef) :
    Result PublishedSubscription := do
  let row ← orError (state.publishedSubscriptions.get subscription) .notFound
  require (row.subject = subject) .unauthorized
  return row

def authorizeSubscriptionDelivery (request : InspectSubscriptionRequest)
    (payload : Bool) (nowMs : Nat) : Result Unit × State :=
  guarded (ownSubscription store request.authenticatedSubscriber request.subscription) state <|
    (do
      let nowMs ← store.deliveryLock clock nowMs state
      let subscription ← orError (state.publishedSubscriptions.get request.subscription) .notFound
      require (subscription.subject = subject
        ∧ (payload = false ∨ subscription.closedRevision = none)) .unauthorized
      currentAuthority state subject request.authenticatedSubscriber subscription.result nowMs,
    state)

def inspectSubscriptionAs
    (request : InspectSubscriptionRequest) : Result SubscriptionInspection × State :=
  guarded (ownSubscription store request.authenticatedSubscriber request.subscription) state <|
    locked store clock state fun state => do
      let subscription ← subscriptionOf state subject request.subscription
      let opened := subscription.result
      currentAuthority state subject request.authenticatedSubscriber opened
        (store.decisionTime state nowMs)
      let stream ← orError (state.streams.get opened.stream) .corrupt
      return (⟨request.subscription, opened.stream, opened.exportName,
        subscription.closedRevision.getD opened.subscriptionRevision, opened.start,
        subscription.acknowledged, stream.head, visibleFrom stream opened.start,
        subscription.closedRevision.isSome⟩, state)

def closeNew (request : CloseSubscriptionRequest) (subscription : PublishedSubscription)
    (state : State) : Result (CloseSubscriptionResult × State) := do
  require (subscription.closedRevision = none
    ∧ ∀ revision ∈ request.expectedSubscriptionRevision,
      revision = subscription.result.subscriptionRevision) .conflict
  let next ← orError (checkedSucc (controlRevision state request.authenticatedSubscriber)) .capacity
  let result : CloseSubscriptionResult := ⟨request.requestId, request.subscription, next⟩
  return (result,
    { state with
      controlRevisions := state.controlRevisions.set request.authenticatedSubscriber next
      publishedSubscriptions := state.publishedSubscriptions.set request.subscription
        { subscription with closedRevision := some next }
      closeRequests := state.closeRequests.set
        (request.authenticatedSubscriber, request.requestId) (request, result) })

def closeSubscriptionAs
    (request : CloseSubscriptionRequest) : Result CloseSubscriptionResult × State :=
  guarded (ownSubscription store request.authenticatedSubscriber request.subscription) state <|
    locked store clock state fun state => do
      let key := (request.authenticatedSubscriber, request.requestId)
      require (state.openRequests.contains key = false) .conflict
      let subscription ← subscriptionOf state subject request.subscription
      currentAuthority state subject request.authenticatedSubscriber subscription.result
        (store.decisionTime state nowMs)
      match state.closeRequests.get key with
      | some (previous, result) =>
        require (previous = request) .conflict
        return (result, state)
      | none => closeNew request subscription state

def firstAfter (stream : PublishedStream) (after : Option Position) : Result Nat := do
  match after with
  | none => return 1
  | some position =>
    stream.locate position
    orError (checkedSucc position.sequence) .capacity

def readAs (request : ReadRequest) : Result ReadPage × State :=
  guarded (do
      store.decisionPeer request.authenticatedSubscriber
      require (request.authenticatedSubscriber = request.subscription.subscriber
        ∧ request.maxRecords ≠ 0 ∧ request.maxBytes ≠ 0) (.invalid "invalid read request"))
    state <| locked store clock state fun state => do
      let subscription ← subscriptionOf state subject request.subscription
      require (subscription.closedRevision = none) .conflict
      currentAuthority state subject request.authenticatedSubscriber subscription.result
        (store.decisionTime state nowMs)
      let stream ← orError (state.streams.get subscription.result.stream) .corrupt
      let start := subscription.result.start
      require (∀ after ∈ request.after, ∀ baseline ∈ start, baseline.sequence ≤ after.sequence)
        .unauthorized
      let first ← firstAfter stream (request.after.or start)
      require (stream.minimumAvailable ≤ first) (.resyncRequired stream.minimumAvailable)
      let records ← pageRecords request.maxBytes
        ((stream.records.drop (first - stream.minimumAvailable)).take request.maxRecords) 0 []
      return (⟨records, stream.head, visibleFrom stream start⟩, state)

def acknowledgeAs (request : AcknowledgeRequest) : Result Position × State :=
  guarded (ownSubscription store request.authenticatedSubscriber request.subscription) state <|
    locked store clock state fun state => do
      let subscription ← subscriptionOf state subject request.subscription
      require (subscription.closedRevision = none
        ∧ ∀ start ∈ subscription.result.start, start.sequence < request.position.sequence) .conflict
      currentAuthority state subject request.authenticatedSubscriber subscription.result
        (store.decisionTime state nowMs)
      let stream ← orError (state.streams.get subscription.result.stream) .corrupt
      stream.locate request.position
      match subscription.acknowledged with
      | some acknowledged =>
        if acknowledged.sequence < request.position.sequence then
          return (request.position,
            { state with
              publishedSubscriptions := state.publishedSubscriptions.set request.subscription
                { subscription with acknowledged := some request.position } })
        else return (acknowledged, state)
      | none =>
        return (request.position,
          { state with
            publishedSubscriptions := state.publishedSubscriptions.set request.subscription
              { subscription with acknowledged := some request.position } })

end Operations

end Xolotl.Federation
