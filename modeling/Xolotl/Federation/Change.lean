import Xolotl.Federation.History

/-! What one call can do to the state of the reference store. Everything later is derived from this
list of changes. -/

namespace Xolotl.Federation

open Word Fallible List

/-! ## Authority and publication -/

def Raises (current : Option Nat) (next : Nat) : Prop := ∀ revision ∈ current, revision < next

theorem nextRevision_raises {current expected : Option Nat} {next : Nat}
    (h : nextRevision current expected = .ok next) : Raises current next := by
  unfold nextRevision at h
  split at h
  · cases h
  · intro revision hr
    obtain rfl := Option.mem_def.mp hr
    obtain ⟨-, rfl⟩ := checkedSucc_eq_some.mp (orError_ok.mp h)
    exact Nat.lt_succ_self revision

def SubjectGrant.key (grant : SubjectGrant) : HostedSubject × FederationNodeId × StreamRef :=
  (grant.subject, grant.presenter, grant.stream)

/-- The history a grant hides: what its stream held when it was set, or nothing. -/
def SubjectGrant.floor (grant : SubjectGrant) (stream : PublishedStream) : Nat :=
  match grant.history with
  | .all => 0
  | .fromGrant => sequenceOrZero stream.head

structure Appends (sha384 : Hash) (s : State) (request : PublishRequest) (stream : PublishedStream)
    (record : Record) : Prop where
  row : s.streams.get request.stream = some stream
  epoch : request.retryEpoch = stream.retryEpoch
  fresh : stream.requests.get (request.retryEpoch, request.publishId) = none
  limit : s.publishIdCount < s.publishIdLimit
  created : ∃ sequence, stream.nextSequence = some sequence ∧
    Record.new sha384 (request.intoParts sequence) = .ok record

def State.appended (s : State) (request : PublishRequest) (stream : PublishedStream)
    (record : Record) : State :=
  { s with
    streams := s.streams.set request.stream (stream.push request record)
    publishIdCount := s.publishIdCount + 1 }

variable {s' : State} {maxRecords nowMs : Nat}
  {expiry : List ((StreamRef × FederationNodeId) × Nat)} {member : FederationNodeId} {α : Type}
  {check : Result Unit} {s : State} {localNode : FederationNodeId} {stream : StreamRef}
  {subscription : SubscriptionRef}

theorem appendLocked_ok {sha384 : Hash} {request : PublishRequest} {record : Record}
    (h : appendLocked sha384 request s = .ok (record, s')) :
    s' = s ∨ ∃ stream, Appends sha384 s request stream record ∧
      s' = s.appended request stream record := by
  simp only [appendLocked, bind_ok, orError_ok, require_ok] at h
  obtain ⟨stream, hr, -, ⟨-, hep⟩, h⟩ := h
  cases hpos : stream.requests.get (request.retryEpoch, request.publishId) with
  | some position =>
    simp only [hpos, bind_ok] at h
    obtain ⟨_, -, h⟩ := h
    cases h
    exact .inl rfl
  | none =>
    simp only [hpos, bind_ok, orError_ok, require_ok] at h
    obtain ⟨-, hl, sequence, hs, created, hc, h⟩ := h
    cases h
    exact .inr ⟨stream, ⟨hr, hep, hpos, hl, sequence, hs, hc⟩, rfl⟩

/-! ## Retirement of history -/

structure Planned (s : State) (stream : StreamRef) (expiryAt : Option Nat)
    (published : PublishedStream) (through : Position) (plan : RetirePlan) : Prop where
  row : s.streams.get stream = some published
  permitted : permittedThrough s stream through expiryAt = .ok ()
  located : published.locate through = .ok ()
  first : published.minimumAvailable ≤ through.sequence
  count : plan.count = through.sequence - published.minimumAvailable + 1
  next : plan.next = through.sequence + 1
  through : plan.through = some through

variable {through : Position} {expiryAt : Option Nat} {plan : RetirePlan}
  {result : PublishedRetirement} {members : Table (StreamRef × FederationNodeId) ReplicaMember}
  {subject : FederationSubject} {view : ReplicaMemberView} {body : State → Result (α × State)}
  {r : Result α × State} {answer : α → Answer}

theorem planRetirement_ok
    (h : planRetirement s localNode stream through maxRecords expiryAt = .ok plan) :
    plan.stream = stream ∧
      (plan.count = 0 ∨ ∃ published, Planned s stream expiryAt published through plan) := by
  simp only [planRetirement, bind_ok, orError_ok] at h
  obtain ⟨-, -, -, -, published, hr, h⟩ := h
  split at h
  · cases h
    exact ⟨rfl, .inl rfl⟩
  · simp only [bind_ok, orError_ok, require_ok] at h
    obtain ⟨_, hp, _, hl, -, ⟨hf, -⟩, -, -, -, -, -, -, next, hn, h⟩ := h
    obtain ⟨-, rfl⟩ := checkedSucc_eq_some.mp hn
    cases h
    exact ⟨rfl, .inr ⟨published, hr, hp, hl, hf, rfl, rfl, rfl⟩⟩

inductive Retires (s : State) (stream : StreamRef) (expiryAt : Option Nat) :
    Table StreamRef PublishedStream → Prop
  | nothing : Retires s stream expiryAt s.streams
  | planned {published : PublishedStream} {through : Position} {plan : RetirePlan}
      (h : Planned s stream expiryAt published through plan) :
      Retires s stream expiryAt (s.streams.set stream (published.retire plan))

theorem applyRetirement_ok
    (hpl : planRetirement s localNode stream through maxRecords expiryAt = .ok plan)
    (h : applyRetirement s plan = .ok (result, s')) :
    ∃ streams, Retires s stream expiryAt streams ∧ s' = { s with streams := streams } := by
  obtain ⟨hs, hp⟩ := planRetirement_ok hpl
  unfold applyRetirement at h
  split at h
  next hc =>
    obtain ⟨published, hp⟩ := hp.resolve_left hc
    simp only [bind_ok] at h
    obtain ⟨row, hr, h⟩ := h
    cases h
    rw [hs, hp.row] at hr
    cases hr
    exact ⟨_, .planned hp, by rw [hs]⟩
  next =>
    cases h
    exact ⟨_, .nothing, rfl⟩

/-! ## Expiry of members -/

/-- The members after maintenance at a time: those of the stream whose lease has run out are
retired, the others stay as they are. -/
def Expires (s : State) (stream : StreamRef) (nowMs : Nat)
    (members : Table (StreamRef × FederationNodeId) ReplicaMember) : Prop :=
  (∀ key, s.replicaMembers.get key = none → members.get key = none) ∧
  ∀ key member, s.replicaMembers.get key = some member →
    ∃ member', members.get key = some member' ∧ member'.spec = member.spec ∧
      (member'.retired = true ↔
        member.retired = true ∨ key.1 = stream ∧ member.expired nowMs = true)

theorem mem_expiries {rows : List ((StreamRef × FederationNodeId) × ReplicaMember)}
    (h : expiries stream nowMs rows = .ok expiry) (key : StreamRef × FederationNodeId) :
    key ∈ expiry.map Prod.fst ↔
      ∃ member, (key, member) ∈ rows ∧ key.1 = stream ∧ member.expired nowMs = true := by
  induction rows generalizing expiry with
  | nil =>
    cases h
    simp
  | cons row rows ih =>
    obtain ⟨key₁, member₁⟩ := row
    unfold expiries at h
    split at h
    next he =>
      simp only [bind_ok] at h
      obtain ⟨revision, -, others, ho, h⟩ := h
      cases h
      rw [map_cons, mem_cons, ih ho]
      constructor
      · rintro (rfl | ⟨member, hm, hmb⟩)
        · exact ⟨member₁, mem_cons_self, he⟩
        · exact ⟨member, mem_cons_of_mem _ hm, hmb⟩
      · rintro ⟨member, hm, hmb⟩
        rcases mem_cons.mp hm with heq | hm
        · cases heq
          exact .inl rfl
        · exact .inr ⟨member, hm, hmb⟩
    next he =>
      rw [ih h]
      constructor
      · rintro ⟨member, hm, hmb⟩
        exact ⟨member, mem_cons_of_mem _ hm, hmb⟩
      · rintro ⟨member, hm, hmb⟩
        rcases mem_cons.mp hm with heq | hm
        · cases heq
          exact absurd hmb he
        · exact ⟨member, hm, hmb⟩

theorem expireMembers_get {members' : Table (StreamRef × FederationNodeId) ReplicaMember}
    (h : expireMembers expiry members = .ok members') (key : StreamRef × FederationNodeId) :
    (members.get key = none → members'.get key = none) ∧ ∀ member, members.get key = some member →
      ∃ member', members'.get key = some member' ∧ member'.spec = member.spec ∧
        (member'.retired = true ↔ member.retired = true ∨ key ∈ expiry.map Prod.fst) := by
  induction expiry generalizing members with
  | nil =>
    cases h
    exact ⟨id, fun member hmb => ⟨member, hmb, rfl, by simp⟩⟩
  | cons row expiry ih =>
    obtain ⟨key₁, revision⟩ := row
    simp only [expireMembers, bind_ok, orError_ok] at h
    obtain ⟨member₁, hmb₁, h⟩ := h
    obtain ⟨hn, hs⟩ := ih h
    by_cases hk : key = key₁
    · subst hk
      refine ⟨fun hm => ?_, fun member hmb => ?_⟩
      · rw [hmb₁] at hm
        cases hm
      · rw [hmb₁] at hmb
        cases hmb
        obtain ⟨member', hmb', hsp, hr⟩ := hs _ (Table.get_set_self ..)
        exact ⟨member', hmb', hsp, by rw [hr]; simp⟩
    · rw [Table.get_set_of_ne _ _ hk] at hn hs
      refine ⟨hn, fun member hmb => ?_⟩
      obtain ⟨member', hmb', hsp, hr⟩ := hs member hmb
      refine ⟨member', hmb', hsp, ?_⟩
      rw [hr]
      simp [hk]

theorem expires_of_ok (he : expiries stream nowMs s.replicaMembers.rows = .ok expiry)
    (hm : expireMembers expiry s.replicaMembers = .ok members) :
    Expires s stream nowMs members := by
  refine ⟨fun key => (expireMembers_get hm key).1, fun key member hmb => ?_⟩
  obtain ⟨member', hmb', hs, hre⟩ := (expireMembers_get hm key).2 member hmb
  refine ⟨member', hmb', hs, ?_⟩
  rw [hre, mem_expiries he]
  -- a key has one row, so the expired row is the member's own
  have ho : (∃ other, (key, other) ∈ s.replicaMembers.rows ∧ key.1 = stream ∧
      other.expired nowMs = true) ↔ key.1 = stream ∧ member.expired nowMs = true := by
    constructor
    · rintro ⟨other, hr, hot⟩
      rw [Table.mem_rows, hmb] at hr
      cases hr
      exact hot
    · exact fun hex => ⟨member, Table.mem_rows.mpr hmb, hex⟩
  rw [ho]

theorem retireSafe_ok (h : retireSafe localNode stream nowMs maxRecords s = .ok (result, s')) :
    ∃ streams members, Retires s stream (some nowMs) streams ∧ Expires s stream nowMs members ∧
      s' = { s with
        streams := streams, replicaMembers := members, objectTrustedTimeMs := nowMs } := by
  simp only [retireSafe, bind_ok] at h
  obtain ⟨-, -, published, hro, expiry, he, frontier, -, last, -, plan, hp, ⟨_, s₁⟩, ha,
    members, hm, h⟩ := h
  cases h
  have hr : ∃ streams, Retires s stream (some nowMs) streams ∧
      s₁ = { s with streams := streams } := by
    cases last with
    | none =>
      cases hp
      cases ha
      exact ⟨_, .nothing, rfl⟩
    | some last =>
      obtain ⟨plan₁, hp₁, rfl⟩ := map_eq_ok.mp hp
      exact applyRetirement_ok hp₁ ha
  obtain ⟨streams, hr, rfl⟩ := hr
  exact ⟨streams, members, hr, expires_of_ok he hm, rfl⟩

/-! ## Subscriptions -/

def PublishedSubscription.frontier (row : PublishedSubscription) : Option Position :=
  row.acknowledged.or row.result.start

structure Opens (s : State) (subject : FederationSubject) (request : OpenRequest)
    (result : OpenResult) : Prop where
  fresh : s.publishedSubscriptions.get request.subscription = none
  presenter : request.authenticatedSubscriber = request.subscription.subscriber
  stream : result.stream = request.stream
  start : ∃ stream floor first nowMs, s.streams.get request.stream = some stream ∧
    subjectAuthority s subject request.authenticatedSubscriber request.stream result.exportName
      nowMs = .ok (result.publisherAuthority, floor) ∧
    requestedStart stream request.history floor = .ok first ∧
    floorStart stream floor first = .ok result.start

theorem openNew_ok {request : OpenRequest} {result : OpenResult}
    (hp : request.authenticatedSubscriber = request.subscription.subscriber)
    (h : openNew subject nowMs request s = .ok (result, s')) :
    Opens s subject request result ∧ ∃ controlRevisions openRequests,
      s' = { s with
        controlRevisions := controlRevisions
        openRequests := openRequests
        publishedSubscriptions := s.publishedSubscriptions.set request.subscription
          ⟨request, subject, result, none, none⟩ } := by
  simp only [openNew, bind_ok, orError_ok, require_ok] at h
  obtain ⟨stream, hs, ⟨current, floor⟩, ha, first, hfs, start, hst, -, hf, -, -, next, -, h⟩ := h
  cases h
  have hn : s.publishedSubscriptions.get request.subscription = none := by
    exact Option.isSome_eq_false_iff.mp hf |> Option.isNone_iff_eq_none.mp
  exact ⟨⟨hn, hp, rfl, stream, floor, first, nowMs, hs, ha, hfs, hst⟩, _, _, rfl⟩

theorem pageRecords_ok {maxBytes bytes : Nat} {records page result : List Record}
    (h : pageRecords maxBytes records bytes page = .ok result) :
    ∃ more, result = page ++ more ∧ more <+: records := by
  induction records generalizing bytes page with
  | nil =>
    cases h
    exact ⟨[], (append_nil _).symm, prefix_refl []⟩
  | cons record records ih =>
    simp only [pageRecords] at h
    split at h
    · cases h
    · split at h
      · split at h
        · cases h
        · cases h
          exact ⟨[], (append_nil _).symm, nil_prefix⟩
      · obtain ⟨more, rfl, hf⟩ := ih h
        refine ⟨record :: more, append_assoc .., ?_⟩
        obtain ⟨rest, rfl⟩ := hf
        exact ⟨rest, rfl⟩

structure Acknowledges (s : State) (subscription : SubscriptionRef) (row : PublishedSubscription)
    (position : Position) : Prop where
  found : s.publishedSubscriptions.get subscription = some row
  start : ∀ start ∈ row.result.start, start.sequence < position.sequence
  later : ∀ acknowledged ∈ row.acknowledged, acknowledged.sequence < position.sequence

/-! ## Members -/

theorem subscriptionReceipt_ok {requireLive : Bool} {baseline acknowledged : Option Position}
    (h : subscriptionReceipt s stream member subscription requireLive =
      .ok (baseline, acknowledged)) :
    ∃ row, s.publishedSubscriptions.get subscription = some row ∧
      row.bindsReplica stream member subscription = true ∧
      acknowledged.or baseline = row.frontier := by
  simp only [subscriptionReceipt, bind_ok, orError_ok, require_ok] at h
  obtain ⟨row, hr, -, hb, -, -, -, -, h⟩ := h
  cases h
  exact ⟨row, hr, hb, rfl⟩

/-- A joining member has not yet missed anything of its stream. -/
structure Joins (s : State) (spec : ReplicaMemberSpec) : Prop where
  commits : ∃ stream row, s.streams.get spec.stream = some stream ∧
    s.publishedSubscriptions.get spec.subscription = some row ∧
    row.bindsReplica spec.stream spec.member spec.subscription = true ∧
    stream.minimumAvailable - 1 ≤ sequenceOrZero row.frontier

theorem joinLocked_ok {spec : ReplicaMemberSpec} {expectedRevision : Option Nat}
    (h : joinLocked spec expectedRevision nowMs s = .ok (view, s')) :
    Joins s spec ∧ ∃ revision,
      s' = { s with
        replicaMembers := s.replicaMembers.set (spec.stream, spec.member) ⟨spec, revision, false⟩
        objectTrustedTimeMs := nowMs } := by
  simp only [joinLocked, bind_ok, orError_ok, require_ok] at h
  obtain ⟨-, -, stream, hs, revision, -, -, -, ⟨baseline, acknowledged⟩, hr, -, hf, -,
    -, _, -, _, -, -, -, h⟩ := h
  cases h
  obtain ⟨row, hro, hb, hrc⟩ := subscriptionReceipt_ok hr
  rw [hrc] at hf
  exact ⟨⟨stream, row, hs, hro, hb, hf⟩, revision, rfl⟩

theorem currentMember_ok {expectedRevision : Nat} {old : ReplicaMember}
    (h : currentMember s stream member expectedRevision = .ok old) :
    s.replicaMembers.get (stream, member) = some old ∧ old.retired = false := by
  simp only [currentMember, bind_ok, orError_ok, require_ok] at h
  obtain ⟨row, hr, -, ⟨hl, -⟩, h⟩ := h
  cases h
  exact ⟨hr, hl⟩

theorem replaceMember_ok {updated : ReplicaMember}
    (h : replaceMember s stream member updated nowMs = .ok (view, s')) :
    s' = { s with
      replicaMembers := s.replicaMembers.set (stream, member) updated
      objectTrustedTimeMs := nowMs } := by
  simp only [replaceMember, bind_ok] at h
  obtain ⟨_, -, h⟩ := h
  cases h
  rfl

/-! ## Inboxes -/

namespace ReceivedSubscription

inductive Moves (row : ReceivedSubscription) : List Record → ReceivedSubscription → Prop
  | same : Moves row [] row
  | push {record : Record} (hnext : row.expected = some record.sequence) :
      Moves row [record] (row.push record)
  | project {position : Position} (hkept : row.forgotten position = false)
      (hlocated : row.locate position = .ok ())
      (hgap : position.sequence ≤ row.expectedProjection)
      (hlater : ∀ projected ∈ row.projected, projected.sequence < position.sequence) :
      Moves row [] { row with projected := some position }
  | retire {first count maxRecords : Nat} (hfirst : row.firstRetained = .ok first)
      (hcount : count ≤ row.eligible first maxRecords) (hlength : count ≤ row.inbox.length) :
      Moves row [] (row.retire count)

variable {row row' : ReceivedSubscription}

theorem accept_ok {record : Record} {answer : AcceptResult}
    (h : row.accept record = .ok (answer, row')) :
    (answer = ⟨record.position, true⟩ ∧ row.expected = some record.sequence ∧
        row' = row.push record) ∨
      (answer.newlyAccepted = false ∧ row.received = some answer.position ∧ row' = row ∧
        row.forgotten record.position = false ∧ row.locate record.position = .ok () ∧
        ∃ expected, row.expected = some expected ∧ record.sequence < expected ∧
          ∀ start ∈ row.opened.start, start.sequence < record.sequence) := by
  simp only [accept, bind_ok, orError_ok, require_ok] at h
  obtain ⟨-, -, expected, he, -, hs, h⟩ := h
  split at h
  next hk =>
    simp only [bind_ok, orError_ok, require_ok] at h
    obtain ⟨-, hke, _, hl, received, hr, h⟩ := h
    cases h
    exact .inr ⟨rfl, hr, rfl, hke, hl, expected, he, hk, hs⟩
  next =>
    simp only [bind_ok, require_ok] at h
    obtain ⟨-, hn, h⟩ := h
    cases h
    exact .inl ⟨rfl, hn ▸ he, rfl⟩

theorem progress_moves {position answer : Position}
    (h : row.progress position = .ok (answer, row')) : Moves row [] row' := by
  simp only [progress, bind_ok, require_ok] at h
  obtain ⟨-, hk, _, hlo, -, hg, h⟩ := h
  cases hp : row.projected with
  | none =>
    simp only [hp] at h
    cases h
    exact .project hk hlo hg (by simp [hp])
  | some projected =>
    simp only [hp] at h
    split at h
    next hl =>
      cases h
      exact .project hk hlo hg (by simpa [hp] using hl)
    next =>
      cases h
      exact .same

theorem countWithin_le {records : List Record} {bytes count result : Nat}
    (h : countWithin records bytes count = .ok result) : result ≤ count + records.length := by
  induction records generalizing bytes count with
  | nil =>
    cases h
    exact Nat.le_add_right _ _
  | cons record records ih =>
    simp only [countWithin] at h
    split at h
    · cases h
    · split at h
      · cases h
        exact Nat.le_add_right _ _
      · have hle := ih h
        rw [length_cons]
        omega

theorem retireProjected_moves {removed : Nat}
    (h : row.retireProjected maxRecords = .ok (removed, row')) : Moves row [] row' := by
  simp only [retireProjected, bind_ok] at h
  obtain ⟨first, hf, count, hc, -, -, h⟩ := h
  cases h
  have hle := countWithin_le hc
  rw [length_take, Nat.zero_add] at hle
  exact .retire hf (hle.trans (Nat.min_le_left _ _)) (hle.trans (Nat.min_le_right _ _))

end ReceivedSubscription

theorem receivedUnder_ok
    {publisher : ReceivedSubscription → FederationNodeId} {row : ReceivedSubscription}
    (h : receivedUnder s subscription publisher = .ok row) :
    s.receivedSubscriptions.get subscription = some row := by
  simp only [receivedUnder, bind_ok, orError_ok] at h
  obtain ⟨_, hr, _, -, -, -, h⟩ := h
  cases h
  exact hr

/-! ## One call -/

variable (sha384 : Hash) (localNode : FederationNodeId) (s : State) (call : Call) in
/-- What a call does to the state, with the events it adds; the trusted time is taken as sampled. -/
inductive Change : List Event → State → Prop
  | none : Change [] s
  | clocks (t o : Nat) : Change [] { s with trustedTimeMs := t, objectTrustedTimeMs := o }
  | admission (admissions : Table FederationNodeId (Nat × PeerAdmission)) :
      Change [] { s with admissions := admissions }
  | peer {peer : FederationNodeId} {next : Nat} {enabled : Bool}
      (h : Raises ((s.peers.get peer).map PeerAuthority.revision) next) :
      Change [] { s with peers := s.peers.set peer ⟨next, enabled⟩ }
  | exported {key : FederationNodeId × ExportName} {next : Nat} {access : ExportAccess}
      (h : Raises ((s.exports.get key).map ExportAuthority.revision) next) :
      Change [] { s with exports := s.exports.set key ⟨next, access⟩ }
  | grant {grant : SubjectGrant} {next : Nat} {stream : PublishedStream}
      (hstream : s.streams.get grant.stream = some stream)
      (h : Raises ((s.subjectGrants.get grant.key).map SubjectGrantRow.revision) next) :
      Change []
        { s with subjectGrants := s.subjectGrants.set grant.key ⟨next, grant, grant.floor stream⟩ }
  | declare {spec : StreamSpec} (hown : spec.stream.publisher = localNode)
      (h : s.streams.get spec.stream = .none) :
      Change []
        { s with streams := s.streams.set spec.stream (.declare spec) }
  | append {request : PublishRequest} {stream : PublishedStream} {record : Record}
      (h : Appends sha384 s request stream record) :
      Change [.published request record] (s.appended request stream record)
  | closeEpoch {ref : StreamRef} {row : PublishedStream} (hrow : s.streams.get ref = some row) :
      Change []
        { s with streams := s.streams.set ref { row with retryEpoch := row.retryEpoch + 1 } }
  | release {receipts : List PublicationReceipt}
      (h : checkReceipts ⟨localNode, call.decision⟩ s.streams receipts = .ok ()) :
      Change [] (releaseLocked receipts s).2
  | retire {stream : StreamRef} {streams : Table StreamRef PublishedStream}
      (h : Retires s stream .none streams) :
      Change [] { s with streams := streams }
  | maintain {stream : StreamRef} {nowMs maxRecords now : Nat}
      {streams : Table StreamRef PublishedStream}
      {members : Table (StreamRef × FederationNodeId) ReplicaMember}
      (hcall : call.request = .retireReplicaSafeHistory stream nowMs maxRecords)
      (hnow : now = MemoryFederationStore.decisionTime ⟨localNode, call.decision⟩ s nowMs)
      (h : Retires s stream (some now) streams) (hmembers : Expires s stream now members) :
      Change []
        { s with streams := streams, replicaMembers := members, objectTrustedTimeMs := now }
  | opened {subject : FederationSubject} {request : OpenRequest} {result : OpenResult}
      {controlRevisions : Table FederationNodeId Nat}
      {openRequests : Table (FederationNodeId × RequestId) OpenResult}
      (h : Opens s subject request result) :
      Change []
        { s with
          controlRevisions := controlRevisions
          openRequests := openRequests
          publishedSubscriptions := s.publishedSubscriptions.set request.subscription
            ⟨request, subject, result, .none, .none⟩ }
  | closed {ref : SubscriptionRef} {row : PublishedSubscription} {next : Nat}
      {controlRevisions : Table FederationNodeId Nat}
      {closeRequests : Table (FederationNodeId × RequestId)
        (CloseSubscriptionRequest × CloseSubscriptionResult)}
      (hrow : s.publishedSubscriptions.get ref = some row) :
      Change []
        { s with
          controlRevisions := controlRevisions
          publishedSubscriptions :=
            s.publishedSubscriptions.set ref { row with closedRevision := some next }
          closeRequests := closeRequests }
  | acknowledged {ref : SubscriptionRef} {row : PublishedSubscription} {position : Position}
      (h : Acknowledges s ref row position) :
      Change []
        { s with
          publishedSubscriptions :=
            s.publishedSubscriptions.set ref { row with acknowledged := some position } }
  | joined {spec : ReplicaMemberSpec} {revision nowMs : Nat} (h : Joins s spec) : Change []
        { s with
          replicaMembers := s.replicaMembers.set (spec.stream, spec.member) ⟨spec, revision, false⟩
          objectTrustedTimeMs := nowMs }
  | member {key : StreamRef × FederationNodeId} {old updated : ReplicaMember} {nowMs : Nat}
      (hold : s.replicaMembers.get key = some old) (hlive : old.retired = false)
      (hspec : updated.spec = { old.spec with term := updated.spec.term }) :
      Change []
        { s with
          replicaMembers := s.replicaMembers.set key updated
          objectTrustedTimeMs := nowMs }
  | installed {opened : OpenResult} {current : AuthorityRevision}
      (h : s.receivedSubscriptions.get opened.subscription = .none) :
      Change [] (setReceived s opened.subscription (.new opened current))
  | moved {ref : SubscriptionRef} {row row' : ReceivedSubscription} {records : List Record}
      (hrow : s.receivedSubscriptions.get ref = some row) (h : row.Moves records row') :
      Change (records.map (.accepted ref)) (setReceived s ref row')

variable {sha384 : Hash} {localNode : FederationNodeId} {s : State} {call : Call}

theorem Transacted.change (h : Transacted check s body r)
    (hd : ∀ t a s', check = .ok () → body (s.sampled t) = .ok (a, s') →
      Change sha384 localNode (s.sampled t) call [] s') :
    ∃ t, Change sha384 localNode (s.sampled t) call [] r.2 := by
  cases h with
  | failed e t => exact ⟨t, .none⟩
  | done hc hb => exact ⟨_, hd _ _ _ hc hb⟩

variable (sha384 localNode s call) in
def Changes : Prop :=
  ∃ t, Change sha384 localNode (s.sampled t) call (events sha384 localNode s call)
    (step sha384 localNode s call).2

theorem silent {c : Result Unit} {store : MemoryFederationStore} {clock : Clock}
    (hs : step sha384 localNode s call = answering answer (guarded c s (locked store clock s body)))
    (he : events sha384 localNode s call = [])
    (hd : ∀ t a s', c = .ok () → body (s.sampled t) = .ok (a, s') →
      Change sha384 localNode (s.sampled t) call [] s') : Changes sha384 localNode s call := by
  unfold Changes
  rw [he, hs]
  exact (transacted ..).change hd

theorem Transacted.of_ok {a : Answer}
    (h : Transacted check s body r) (hs : step sha384 localNode s call = answering answer r)
    (hok : (step sha384 localNode s call).1 = .ok a) :
    check = .ok () ∧ ∃ t b s', body (s.sampled t) = .ok (b, s') ∧
      step sha384 localNode s call = (.ok (answer b), s') := by
  rw [hs] at hok ⊢
  obtain ⟨b, hb, rfl⟩ := map_eq_ok.mp hok
  cases h with
  | failed => cases hb
  | done hc hbo => exact ⟨hc, _, _, _, hbo, rfl⟩

theorem retirePublicationIdentities_change (receipts : List PublicationReceipt) :
    ∃ t, Change sha384 localNode (s.sampled t) call []
      (retirePublicationIdentities ⟨localNode, call.decision⟩ call.clock s receipts).2 := by
  obtain ⟨t, ht⟩ := lock_state ⟨localNode, call.decision⟩ call.clock s
  unfold retirePublicationIdentities
  split
  · exact ⟨s.trustedTimeMs, .none⟩
  · rcases hl : MemoryFederationStore.lock ⟨localNode, call.decision⟩ call.clock s
      with ⟨answer, s₁⟩
    rw [hl] at ht
    subst ht
    refine ⟨t, ?_⟩
    cases answer with
    | error e => exact .none
    | ok u =>
      dsimp only
      cases hc : checkReceipts ⟨localNode, call.decision⟩ (s.sampled t).streams receipts with
      | error e => exact .none
      | ok u => exact .release hc

theorem appendPublished_change (decision : Option FederationDecision) (clock : Clock)
    (request : PublishRequest) :
    let call : Call := ⟨decision, clock, .appendPublished request⟩
    Changes sha384 localNode s call := by
  have h : Transacted _ s _ (appendPublished sha384 ⟨localNode, decision⟩ clock s request) :=
    transacted ..
  simp only [Changes, events, step, answering]
  generalize appendPublished sha384 ⟨localNode, decision⟩ clock s request = r at h
  cases h with
  | failed e t => exact ⟨t, .none⟩
  | @done t record s' _ hb =>
    refine ⟨t, ?_⟩
    simp only [Except.map]
    rcases appendLocked_ok hb with rfl | ⟨stream, ha, rfl⟩
    · have hs : ¬recordCount s request.stream < recordCount (s.sampled t) request.stream :=
        lt_irrefl _
      rw [if_neg hs]
      exact .none
    · have hl : recordCount s request.stream <
          recordCount ((s.sampled t).appended request stream record) request.stream := by
        have hr : s.streams.get request.stream = some stream := ha.row
        simp [recordCount, State.appended, PublishedStream.push, hr]
      rw [if_pos hl]
      exact .append ha

theorem accept_change (decision : Option FederationDecision) (clock : Clock)
    (request : AcceptRequest) :
    let call : Call := ⟨decision, clock, .accept request⟩
    Changes sha384 localNode s call := by
  have h : Transacted _ s _ (accept ⟨localNode, decision⟩ clock s request) := transacted ..
  simp only [Changes, events, step, answering]
  generalize accept ⟨localNode, decision⟩ clock s request = r at h
  cases h with
  | failed e t => exact ⟨t, .none⟩
  | @done t answer s' _ hb =>
    refine ⟨t, ?_⟩
    simp only [bind_ok] at hb
    obtain ⟨row, hr, ⟨_, row'⟩, ha, h⟩ := hb
    cases h
    simp only [Except.map]
    rcases ReceivedSubscription.accept_ok ha with ⟨rfl, hn, rfl⟩ | ⟨hold, -, rfl, -⟩
    · exact .moved (receivedUnder_ok hr) (.push hn)
    · rw [if_neg (by simp [hold])]
      exact .moved (receivedUnder_ok hr) .same

theorem acknowledgeAs_change {request : AcknowledgeRequest}
    (store : MemoryFederationStore) (clock : Clock) :
    ∃ t, Change sha384 localNode (s.sampled t) call []
      (acknowledgeAs store clock s subject nowMs request).2 := by
  refine (transacted ..).change fun t answer s' _ hb => ?_
  simp only [subscriptionOf, bind_ok, orError_ok, require_ok] at hb
  obtain ⟨row, ⟨_, hr, -, -, hs⟩, -, ⟨-, hsa⟩, -, -, _, -, _, -, h⟩ := hb
  cases hs
  have hac (hl : ∀ acknowledged ∈ row.acknowledged,
      acknowledged.sequence < request.position.sequence) :
      Acknowledges (s.sampled t) request.subscription row request.position :=
    ⟨hr, hsa, hl⟩
  cases ha : row.acknowledged with
  | none =>
    simp only [ha] at h
    cases h
    exact .acknowledged (hac (by simp [ha]))
  | some acknowledged =>
    simp only [ha] at h
    split at h
    next hl =>
      cases h
      exact .acknowledged (hac (by simpa [ha] using hl))
    next =>
      cases h
      exact .none

theorem step_change (sha384 : Hash) (localNode : FederationNodeId) (s : State) (call : Call) :
    Changes sha384 localNode s call := by
  obtain ⟨decision, clock, request⟩ := call
  cases request with
  | appendPublished request => exact appendPublished_change decision clock request
  | accept request => exact accept_change decision clock request
  | retirePublicationIdentities receipts => exact retirePublicationIdentities_change receipts
  | acknowledgeAs subject nowMs request => exact acknowledgeAs_change _ _
  | elsewhere t o => exact ⟨s.trustedTimeMs, .clocks t o⟩
  | authorizeSubscriptionDelivery subject request payload nowMs =>
    refine ⟨s.trustedTimeMs, ?_⟩
    have hs : (authorizeSubscriptionDelivery ⟨localNode, decision⟩ clock s subject request payload
        nowMs).2 = s := by
      unfold authorizeSubscriptionDelivery guarded
      split <;> rfl
    simp only [step, answering, hs]
    exact .none
  | setPeerAdmission peer expected admission =>
    refine silent rfl rfl fun t _ _ _ hb => ?_
    simp only [bind_ok] at hb
    obtain ⟨-, -, -, -, _, -, h⟩ := hb
    cases h
    exact .admission _
  | setPeerAuthority peer expected enabled =>
    refine silent rfl rfl fun t _ _ _ hb => ?_
    simp only [bind_ok] at hb
    obtain ⟨_, hn, h⟩ := hb
    cases h
    exact .peer (nextRevision_raises hn)
  | setExportAuthority peer exportName expected access =>
    refine silent rfl rfl fun t _ _ _ hb => ?_
    simp only [bind_ok] at hb
    obtain ⟨-, -, _, hn, h⟩ := hb
    cases h
    exact .exported (nextRevision_raises hn)
  | setSubjectGrant expected grant =>
    refine silent rfl rfl fun t _ _ _ hb => ?_
    simp only [bind_ok, orError_ok] at hb
    obtain ⟨-, -, stream, hst, _, hn, h⟩ := hb
    cases h
    exact .grant hst (nextRevision_raises hn)
  | declareStream spec =>
    refine silent rfl rfl fun t _ _ hc hb => ?_
    cases hro : (s.sampled t).streams.get spec.stream with
    | some existing =>
      simp only [hro, bind_ok] at hb
      obtain ⟨-, -, h⟩ := hb
      cases h
      exact .none
    | none =>
      simp only [hro] at hb
      cases hb
      exact .declare (require_ok.mp hc) hro
  | publicationEpoch stream =>
    refine silent rfl rfl fun t _ _ _ hb => ?_
    simp only [bind_ok] at hb
    obtain ⟨_, -, h⟩ := hb
    cases h
    exact .none
  | closePublicationEpoch stream expected =>
    refine silent rfl rfl fun t _ _ _ hb => ?_
    simp only [bind_ok, orError_ok, require_ok] at hb
    obtain ⟨row, hro, -, ⟨-, rfl⟩, next, hn, h⟩ := hb
    obtain ⟨-, rfl⟩ := checkedSucc_eq_some.mp hn
    cases h
    exact .closeEpoch hro
  | inspectPublication stream retryEpoch publishId =>
    refine silent rfl rfl fun t _ _ _ hb => ?_
    simp only [bind_ok] at hb
    obtain ⟨_, -, _, -, h⟩ := hb
    cases h
    exact .none
  | retirePublishedHistory stream through maxRecords =>
    refine silent (c := .ok ()) rfl rfl fun t _ _ _ hb => ?_
    simp only [retireExplicit, bind_ok] at hb
    obtain ⟨plan, hp, ha⟩ := hb
    obtain ⟨streams, hr, rfl⟩ := applyRetirement_ok hp ha
    exact .retire hr
  | openAs subject nowMs request =>
    refine silent rfl rfl fun t _ _ hc hb => ?_
    simp only [bind_ok, require_ok] at hc hb
    obtain ⟨-, -, -, hpr⟩ := hc
    obtain ⟨-, -, h⟩ := hb
    split at h
    · simp only [bind_ok] at h
      obtain ⟨_, -, h⟩ := h
      cases h
      exact .none
    · obtain ⟨ho, _, _, rfl⟩ := openNew_ok hpr h
      exact .opened ho
  | inspectSubscriptionAs subject nowMs request =>
    refine silent rfl rfl fun t _ _ _ hb => ?_
    simp only [bind_ok] at hb
    obtain ⟨_, -, _, -, _, -, h⟩ := hb
    cases h
    exact .none
  | closeSubscriptionAs subject nowMs request =>
    refine silent rfl rfl fun t _ _ _ hb => ?_
    simp only [subscriptionOf, closeNew, bind_ok, orError_ok] at hb
    obtain ⟨-, -, row, ⟨_, hro, -, -, hs⟩, _, -, h⟩ := hb
    cases hs
    split at h
    · simp only [bind_ok] at h
      obtain ⟨-, -, h⟩ := h
      cases h
      exact .none
    · simp only [bind_ok] at h
      obtain ⟨-, -, next, -, h⟩ := h
      cases h
      exact .closed hro
  | readAs subject nowMs request =>
    refine silent rfl rfl fun t _ _ _ hb => ?_
    simp only [bind_ok] at hb
    obtain ⟨_, -, _, -, _, -, _, -, _, -, _, -, _, -, _, -, h⟩ := hb
    cases h
    exact .none
  | joinReplica spec expected nowMs =>
    refine silent rfl rfl fun t _ _ _ hb => ?_
    obtain ⟨hj, revision, rfl⟩ := joinLocked_ok hb
    exact .joined hj
  | extendReplica stream member expected term nowMs =>
    refine silent rfl rfl fun t _ _ _ hb => ?_
    simp only [bind_ok] at hb
    obtain ⟨-, -, old, hold, -, -, revision, -, h⟩ := hb
    obtain ⟨hro, hl⟩ := currentMember_ok hold
    obtain rfl := replaceMember_ok h
    exact .member hro hl rfl
  | retireReplica stream member expected nowMs =>
    refine silent rfl rfl fun t _ _ _ hb => ?_
    simp only [bind_ok] at hb
    obtain ⟨-, -, old, hold, revision, -, h⟩ := hb
    obtain ⟨hro, hl⟩ := currentMember_ok hold
    obtain rfl := replaceMember_ok h
    exact .member hro hl rfl
  | retireReplicaSafeHistory stream nowMs maxRecords =>
    refine silent rfl rfl fun t _ _ _ hb => ?_
    obtain ⟨streams, members, hr, he, rfl⟩ := retireSafe_ok hb
    exact .maintain rfl rfl hr he
  | installSubscription request =>
    refine silent rfl rfl fun t _ _ _ hb => ?_
    simp only [bind_ok] at hb
    obtain ⟨current, -, h⟩ := hb
    cases hro : (s.sampled t).receivedSubscriptions.get request.opened.subscription with
    | some existing =>
      simp only [hro, bind_ok] at h
      obtain ⟨_, -, h⟩ := h
      cases h
      exact .none
    | none =>
      simp only [hro] at h
      cases h
      exact .installed hro
  | readInbox request =>
    refine silent rfl rfl fun t _ _ _ hb => ?_
    simp only [bind_ok] at hb
    obtain ⟨_, -, _, -, _, -, _, -, _, -, h⟩ := hb
    cases h
    exact .none
  | recordProjectionProgress request =>
    refine silent rfl rfl fun t _ _ _ hb => ?_
    simp only [bind_ok] at hb
    obtain ⟨row, hro, ⟨_, row'⟩, hpg, h⟩ := hb
    cases h
    exact .moved (receivedUnder_ok hro) (ReceivedSubscription.progress_moves hpg)
  | retireProjectedInbox subscription maxRecords =>
    refine silent rfl rfl fun t _ _ _ hb => ?_
    simp only [bind_ok, orError_ok] at hb
    obtain ⟨row, hro, ⟨_, row'⟩, hre, h⟩ := hb
    cases h
    exact .moved hro (ReceivedSubscription.retireProjected_moves hre)

end Xolotl.Federation
