import Xolotl.Federation.Subscribe

/-! The receiving side: installed subscriptions and their inboxes. -/

namespace Xolotl.Federation

open Word

namespace ReceivedSubscription

variable (row : ReceivedSubscription)

def firstRetained : Result Nat :=
  match row.retiredThrough.or row.opened.start with
  | none => .ok 1
  | some position => orError (checkedSucc position.sequence) .capacity

def locate (position : Position) : Result Unit :=
  if row.retiredThrough = some position ∨ row.opened.start = some position then .ok ()
  else if row.retiredThrough.any (·.sequence = position.sequence) then .error .conflict
  else if row.opened.start.any (·.sequence = position.sequence) then .error .conflict
  else do
    let first ← row.firstRetained
    require (first ≤ position.sequence) (.resyncRequired first)
    let record ← orError row.inbox[position.sequence - first]? .conflict
    require (record.digest = position.digest) .conflict

def new (opened : OpenResult) (current : AuthorityRevision) : ReceivedSubscription :=
  ⟨opened, current, [], none, none, none⟩

def expected : Option Nat :=
  match row.received.or row.opened.start with
  | none => some 1
  | some position => checkedSucc position.sequence

/-- The position was retired and is not the anchor, so nothing is left to compare it with. -/
def forgotten (position : Position) : Bool :=
  row.retiredThrough.any (position.sequence ≤ ·.sequence) && row.retiredThrough ≠ some position

def push (record : Record) : ReceivedSubscription :=
  { row with inbox := row.inbox ++ [record], received := some record.position }

/-- Accept a record of the stream; a record that is not the next is compared with what is kept. -/
def accept (record : Record) : Result (AcceptResult × ReceivedSubscription) := do
  require (record.stream = row.opened.stream) .conflict
  let expected ← orError row.expected .capacity
  require (∀ start ∈ row.opened.start, start.sequence < record.sequence) .conflict
  if record.sequence < expected then
    require (row.forgotten record.position = false) .indeterminate
    row.locate record.position
    let received ← orError row.received .corrupt
    return (⟨received, false⟩, row)
  else
    require (record.sequence = expected) (.gap expected record.sequence)
    return (⟨record.position, true⟩, row.push record)

variable (after : Option Position)

def firstOfPage : Option Nat :=
  match (after.or row.retiredThrough).or row.opened.start with
  | none => some 1
  | some position => checkedSucc position.sequence

def offset : Result Nat := do
  let firstRetained ← row.firstRetained
  match row.firstOfPage after with
  | none => return row.inbox.length
  | some first =>
    require (firstRetained ≤ first) (.resyncRequired firstRetained)
    return first - firstRetained

def admitAfter : Result Unit := do
  match after with
  | none => return ()
  | some position =>
    require (∀ start ∈ row.opened.start, start.sequence ≤ position.sequence) .unauthorized
    row.locate position

def page (maxRecords maxBytes : Nat) : Result (List Record) := do
  row.admitAfter after
  let offset ← row.offset after
  pageRecords maxBytes ((row.inbox.drop offset).take maxRecords) 0 []

def expectedProjection : Nat :=
  match row.projected.or row.opened.start with
  | none => 1
  | some position => saturatingSucc position.sequence

def progress (position : Position) : Result (Position × ReceivedSubscription) := do
  require (row.forgotten position = false) .indeterminate
  row.locate position
  require (position.sequence ≤ row.expectedProjection)
    (.gap row.expectedProjection position.sequence)
  match row.projected with
  | none => return (position, { row with projected := some position })
  | some projected =>
    if projected.sequence < position.sequence then
      return (position, { row with projected := some position })
    else return (projected, row)

def eligible (first maxRecords : Nat) : Nat :=
  match row.projected with
  | none => 0
  | some projected =>
    if first ≤ projected.sequence ∧ projected.sequence - first < u64Max then
      min (projected.sequence - first + 1) maxRecords
    else 0

def countWithin : List Record → Nat → Nat → Result Nat
  | [], _, count => .ok count
  | record :: rest, bytes, count =>
    let next := bytes + record.payload.length
    if u64Max < next then .error .capacity
    else if maxRetireBytes < next then .ok count
    else countWithin rest next (count + 1)

def retire (count : Nat) : ReceivedSubscription :=
  { row with
    inbox := row.inbox.drop count
    retiredThrough := ((row.inbox.take count).getLast?.map Record.position).or row.retiredThrough }

def retireProjected (maxRecords : Nat) : Result (Nat × ReceivedSubscription) := do
  let first ← row.firstRetained
  let eligible := row.eligible first maxRecords
  let count ← countWithin (row.inbox.take eligible) 0 0
  require (eligible = 0 ∨ count ≠ 0) .capacity
  return (count, row.retire count)

end ReceivedSubscription

section Operations

variable (store : MemoryFederationStore) (clock : Clock) (state : State)

def installSubscription (request : InstallSubscriptionRequest) : Result OpenResult × State :=
  guarded (do
      store.decisionPeer request.authenticatedPublisher
      require (request.opened.subscription.subscriber = store.localNode
        ∧ request.opened.stream.publisher = request.authenticatedPublisher
        ∧ request.opened.subscriptionRevision ≠ 0) .unauthorized)
    state <| locked store clock state fun state => do
      let opened := request.opened
      let current ← authority state request.authenticatedPublisher opened.exportName false
      match state.receivedSubscriptions.get opened.subscription with
      | some existing =>
        require (existing.opened = opened ∧ existing.localAuthority = current) .conflict
        return (opened, state)
      | none =>
        return (opened,
          { state with
            receivedSubscriptions :=
              state.receivedSubscriptions.set opened.subscription (.new opened current) })

def receivedUnder (state : State) (subscription : SubscriptionRef)
    (publisher : ReceivedSubscription → FederationNodeId) : Result ReceivedSubscription := do
  let row ← orError (state.receivedSubscriptions.get subscription) .notFound
  let current ← authority state (publisher row) row.opened.exportName false
  require (current = row.localAuthority) .conflict
  return row

def setReceived (state : State) (subscription : SubscriptionRef) (row : ReceivedSubscription) :
    State :=
  { state with receivedSubscriptions := state.receivedSubscriptions.set subscription row }

def accept (request : AcceptRequest) : Result AcceptResult × State :=
  guarded (do
      store.decisionPeer request.authenticatedPublisher
      require (request.subscription.subscriber = store.localNode
        ∧ request.record.stream.publisher = request.authenticatedPublisher) .unauthorized)
    state <| locked store clock state fun state => do
      let row ← receivedUnder state request.subscription fun _ => request.authenticatedPublisher
      let (answer, row) ← row.accept request.record
      return (answer, setReceived state request.subscription row)

def readInbox (request : InboxReadRequest) : Result InboxReadPage × State :=
  guarded (require (request.subscription.subscriber = store.localNode ∧ request.maxRecords ≠ 0
      ∧ request.maxRecords ≤ maxInboxRecords ∧ request.maxBytes ≠ 0
      ∧ request.maxBytes ≤ maxInboxBytes) .capacity)
    state <| locked store clock state fun state => do
      let row ← orError (state.receivedSubscriptions.get request.subscription) .notFound
      require (row.opened.stream = request.expectedStream) .conflict
      let current ← authority state row.opened.stream.publisher row.opened.exportName false
      require (current = row.localAuthority) .conflict
      let records ← row.page request.after request.maxRecords request.maxBytes
      return (⟨row.opened, row.received, row.projected, records⟩, state)

def recordProjectionProgress (request : ProjectionProgress) : Result Position × State :=
  guarded (require (request.subscription.subscriber = store.localNode) .unauthorized) state <|
    locked store clock state fun state => do
      let row ← receivedUnder state request.subscription fun row => row.opened.stream.publisher
      let (answer, row) ← row.progress request.position
      return (answer, setReceived state request.subscription row)

def retireProjectedInbox (subscription : SubscriptionRef) (maxRecords : Nat) :
    Result InboxRetirement × State :=
  guarded (require (subscription.subscriber = store.localNode ∧ maxRecords ≠ 0
      ∧ maxRecords ≤ maxRetireRecords) .capacity)
    state <| locked store clock state fun state => do
      let row ← orError (state.receivedSubscriptions.get subscription) .notFound
      let (removed, row) ← row.retireProjected maxRecords
      return (⟨subscription, row.received, row.projected, row.retiredThrough, removed⟩,
        setReceived state subscription row)

end Operations

end Xolotl.Federation
