import Xolotl.Federation.Store

/-! Publication: streams, idempotent appends, retry epochs and the release of identities. -/

namespace Xolotl.Federation

open Word

namespace PublishedStream

variable (stream : PublishedStream)

def locate (position : Position) : Result Unit :=
  if stream.retiredThrough = some position then .ok ()
  else if stream.retiredThrough.any (·.sequence = position.sequence) then .error .conflict
  else if position.sequence < stream.minimumAvailable then
    .error (.resyncRequired stream.minimumAvailable)
  else do
    let record ← orError stream.records[position.sequence - stream.minimumAvailable]? .conflict
    require (record.digest = position.digest) .conflict

def declare (spec : StreamSpec) : PublishedStream := ⟨spec, [], ∅, 1, none, 1, none⟩

def retry (request : PublishRequest) (position : Position) : Result Record :=
  if position.sequence < stream.minimumAvailable then .error .indeterminate
  else do
    let record ← orError stream.records[position.sequence - stream.minimumAvailable]? .corrupt
    if request.matchesRecord record then return record else .error .conflict

def nextSequence : Option Nat :=
  match stream.head with
  | none => some 1
  | some head => checkedSucc head.sequence

def push (request : PublishRequest) (record : Record) : PublishedStream :=
  { stream with
    head := some record.position
    records := stream.records ++ [record]
    requests := stream.requests.set (request.retryEpoch, request.publishId) record.position }

end PublishedStream

section Operations

variable (sha384 : Hash) (store : MemoryFederationStore) (clock : Clock) (state : State)
  (stream : StreamRef)

def ownStream : Result Unit :=
  require (stream.publisher = store.localNode) .unauthorized

def declareStream (spec : StreamSpec) : Result Unit × State :=
  guarded (ownStream store spec.stream) state <| locked store clock state fun state => do
    match state.streams.get spec.stream with
    | some existing =>
      require (existing.spec = spec) .conflict
      return ((), state)
    | none =>
      return ((), { state with streams := state.streams.set spec.stream (.declare spec) })

/-- Append under the lock; an identity that has a position is answered from it. -/
def appendLocked (request : PublishRequest) (state : State) : Result (Record × State) := do
  let stream ← orError (state.streams.get request.stream) .notFound
  require (request.retryEpoch ≠ 0 ∧ request.retryEpoch = stream.retryEpoch) .conflict
  match stream.requests.get (request.retryEpoch, request.publishId) with
  | some position =>
    let record ← stream.retry request position
    return (record, state)
  | none =>
    require (state.publishIdCount < state.publishIdLimit) .capacity
    let sequence ← orError stream.nextSequence .capacity
    let record ← Record.new sha384 (request.intoParts sequence)
    return (record,
      { state with
        streams := state.streams.set request.stream (stream.push request record)
        publishIdCount := state.publishIdCount + 1 })

def appendPublished (request : PublishRequest) : Result Record × State :=
  guarded (ownStream store request.stream) state <|
    locked store clock state (appendLocked sha384 request)

def publicationEpoch : Result Nat × State :=
  guarded (ownStream store stream) state <| locked store clock state fun state => do
    let row ← orError (state.streams.get stream) .notFound
    return (row.retryEpoch, state)

def closePublicationEpoch (expected : Nat) : Result Nat × State :=
  guarded (ownStream store stream) state <| locked store clock state fun state => do
    let row ← orError (state.streams.get stream) .notFound
    require (expected ≠ 0 ∧ expected = row.retryEpoch) .conflict
    let next ← orError (checkedSucc expected) .capacity
    return (next, { state with
      streams := state.streams.set stream { row with retryEpoch := next } })

def inspectPublication (retryEpoch : Nat) (publishId : RequestId) :
    Result (Option Position) × State :=
  guarded (ownStream store stream) state <| locked store clock state fun state => do
    let row ← orError (state.streams.get stream) .notFound
    require (retryEpoch ≠ 0 ∧ retryEpoch ≤ row.retryEpoch) .conflict
    return (row.requests.get (retryEpoch, publishId), state)

/-- Every receipt belongs to a closed epoch of an own stream and names what is retained for it. -/
def checkReceipts (streams : Table StreamRef PublishedStream) :
    List PublicationReceipt → Result Unit
  | [] => .ok ()
  | receipt :: rest => do
    ownStream store receipt.stream
    let row ← orError (streams.get receipt.stream) .notFound
    require (receipt.retryEpoch ≠ 0 ∧ receipt.retryEpoch < row.retryEpoch
      ∧ ∀ position ∈ row.requests.get (receipt.retryEpoch, receipt.publishId),
        position = receipt.position) .conflict
    checkReceipts streams rest

/-- Release the identities of checked receipts and count those that were retained. A missing stream
stops the release where it stands. -/
def releaseIdentities : List PublicationReceipt → Table StreamRef PublishedStream → Nat →
    Result Nat × Table StreamRef PublishedStream
  | [], streams, removed => (.ok removed, streams)
  | receipt :: rest, streams, removed =>
    match streams.get receipt.stream with
    | none => (.error .corrupt, streams)
    | some row =>
      let key := (receipt.retryEpoch, receipt.publishId)
      releaseIdentities rest
        (streams.set receipt.stream { row with requests := row.requests.remove key })
        (if row.requests.contains key then removed + 1 else removed)

/-- Not a transaction: the counter is checked after the identities are gone. -/
def releaseLocked (receipts : List PublicationReceipt) (state : State) : Result Nat × State :=
  match releaseIdentities receipts state.streams 0 with
  | (.error e, streams) => (.error e, { state with streams := streams })
  | (.ok removed, streams) =>
    if state.publishIdCount < removed then (.error .corrupt, { state with streams := streams })
    else
      (.ok removed,
        { state with streams := streams, publishIdCount := state.publishIdCount - removed })

def retirePublicationIdentities (receipts : List PublicationReceipt) : Result Nat × State :=
  if maxPublicationRetireIds < receipts.length then (.error .capacity, state)
  else
    match store.lock clock state with
    | (.error e, state) => (.error e, state)
    | (.ok (), state) =>
      match checkReceipts store state.streams receipts with
      | .error e => (.error e, state)
      | .ok () => releaseLocked receipts state

end Operations

end Xolotl.Federation
