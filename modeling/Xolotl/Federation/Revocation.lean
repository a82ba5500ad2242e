import Xolotl.Federation.Commitments

/-! Revocation: a subscription is usable only while every authority row it was opened under is at
the revision it was opened with, and revisions only rise. -/

namespace Xolotl.Federation

open Word Fallible Table

variable {sha384 : Hash} {localNode : FederationNodeId} {s s' : State} {call : Call}
  {events : List Event}

/-! ## Authority rows -/

inductive AuthorityRow
  | peer (peer : FederationNodeId)
  | exported (key : FederationNodeId × ExportName)
  | grant (key : HostedSubject × FederationNodeId × StreamRef)
  deriving DecidableEq

def State.revision (s : State) : AuthorityRow → Option Nat
  | .peer peer => (s.peers.get peer).map PeerAuthority.revision
  | .exported key => (s.exports.get key).map ExportAuthority.revision
  | .grant key => (s.subjectGrants.get key).map SubjectGrantRow.revision

/-- The rows a subject's authority rests on, each with the revision it had. -/
def authorityRows (subject : FederationSubject) (presenter : FederationNodeId) (stream : StreamRef)
    (exportName : ExportName) (current : AuthorityRevision) : List (AuthorityRow × Nat) :=
  match subject with
  | .node _ =>
    [(.peer presenter, current.peer), (.exported (presenter, exportName), current.exportRevision)]
  | .hosted hosted =>
    [(.peer presenter, current.peer), (.grant (hosted, presenter, stream), current.exportRevision)]

def PublishedSubscription.openedUnder (row : PublishedSubscription) (ref : SubscriptionRef) :
    List (AuthorityRow × Nat) :=
  authorityRows row.subject ref.subscriber row.result.stream row.result.exportName
    row.result.publisherAuthority

variable {presenter subscriber : FederationNodeId} {exportName : ExportName}
  {current : AuthorityRevision}

theorem authority_ok {peer : FederationNodeId} {serve : Bool}
    (h : authority s peer exportName serve = .ok current) :
    s.revision (.peer peer) = some current.peer ∧
      s.revision (.exported (peer, exportName)) = some current.exportRevision := by
  simp only [authority, bind_ok, orError_ok] at h
  obtain ⟨peerRow, hp, exportRow, he, -, -, h⟩ := h
  cases h
  simp [State.revision, hp, he]

variable {subject : FederationSubject} {nowMs : Nat} {row : PublishedSubscription}
  {ref : SubscriptionRef} {answer : Answer}

theorem subjectAuthority_rows {stream : StreamRef} {floor : Nat}
    (h : subjectAuthority s subject presenter stream exportName nowMs = .ok (current, floor)) :
    ∀ entry ∈ authorityRows subject presenter stream exportName current,
      s.revision entry.1 = some entry.2 := by
  cases subject with
  | node node =>
    simp only [subjectAuthority, bind_ok] at h
    obtain ⟨-, -, _, ha, h⟩ := h
    cases h
    obtain ⟨hp, he⟩ := authority_ok ha
    exact List.forall_mem_cons.mpr ⟨hp, List.forall_mem_singleton.mpr he⟩
  | hosted hosted =>
    simp only [subjectAuthority, bind_ok, orError_ok] at h
    obtain ⟨peerRow, hp, grantRow, hg, -, -, h⟩ := h
    cases h
    refine List.forall_mem_cons.mpr ⟨?_, List.forall_mem_singleton.mpr ?_⟩
    · rw [State.revision, hp]
      rfl
    · rw [State.revision, hg]
      rfl

/-! ## Revisions rise -/

theorem revision_set {K V : Type} [DecidableEq K] {rows : Table K V} {revision : V → Nat}
    {key other : K}
    {value : V} {old : Nat} (h : Raises ((rows.get key).map revision) (revision value))
    (hold : (rows.get other).map revision = some old) :
    ∃ new, ((rows.set key value).get other).map revision = some new ∧ old ≤ new := by
  by_cases hs : other = key
  · subst hs
    rw [get_set_self]
    exact ⟨_, rfl, Nat.le_of_lt (h old hold)⟩
  · rw [get_set_of_ne _ _ hs]
    exact ⟨old, hold, Nat.le_refl old⟩

theorem Change.revision (h : Change sha384 localNode s call events s')
    {row : AuthorityRow} {old : Nat}
    (hold : s.revision row = some old) : ∃ new, s'.revision row = some new ∧ old ≤ new := by
  cases h with
  | peer hr =>
    cases row with
    | peer peer => exact revision_set hr hold
    | _ => exact ⟨old, hold, Nat.le_refl old⟩
  | exported hr =>
    cases row with
    | exported key => exact revision_set hr hold
    | _ => exact ⟨old, hold, Nat.le_refl old⟩
  | grant _ hr =>
    cases row with
    | grant key => exact revision_set hr hold
    | _ => exact ⟨old, hold, Nat.le_refl old⟩
  | release =>
    rename_i receipts _
    obtain ⟨_, _, hst⟩ := releaseLocked_state receipts s
    rw [hst]
    cases row <;> exact ⟨old, hold, Nat.le_refl old⟩
  | _ => cases row <;> exact ⟨old, hold, Nat.le_refl old⟩

/-! ## Captured revisions -/

theorem PublishedSubscription.Advances.openedUnder {row' : PublishedSubscription}
    (h : row.Advances row') (ref : SubscriptionRef) :
    row'.openedUnder ref = row.openedUnder ref := by
  rw [PublishedSubscription.openedUnder, PublishedSubscription.openedUnder, h.subject, h.result]

theorem Opens.revisions
    (hr : row.request.subscription = ref) (h : Opens s row.subject row.request row.result) :
    ∀ entry ∈ row.openedUnder ref, s.revision entry.1 = some entry.2 := by
  obtain ⟨_, _, _, _, -, ha, -, -⟩ := h.start
  rw [h.presenter, hr, ← h.stream] at ha
  exact subjectAuthority_rows ha

/-- No subscription was opened under a revision that its row has not reached. -/
def Captured (s : State) : Prop :=
  ∀ ref row, s.publishedSubscriptions.get ref = some row → ∀ entry ∈ row.openedUnder ref,
    ∃ current, s.revision entry.1 = some current ∧ entry.2 ≤ current

theorem Change.captured (h : Change sha384 localNode s call events s') (hc : Captured s) :
    Captured s' := by
  intro ref row' hro' entry he
  rcases (h.subscription ref).origin hro' with ⟨-, hre, ho⟩ | ⟨row, hro, ha⟩
  · exact h.revision (ho.revisions hre entry he)
  · rw [ha.openedUnder] at he
    obtain ⟨current, hcu, hle⟩ := hc ref row hro entry he
    obtain ⟨new, hn, hr⟩ := h.revision hcu
    exact ⟨new, hn, hle.trans hr⟩

def Stale (s : State) (ref : SubscriptionRef) : Prop :=
  ∃ row, s.publishedSubscriptions.get ref = some row ∧ ∃ entry ∈ row.openedUnder ref,
    ∃ current, s.revision entry.1 = some current ∧ entry.2 < current

theorem Change.stale (h : Change sha384 localNode s call events s')
    (hs : Stale s ref) : Stale s' ref := by
  obtain ⟨row, hro, entry, he, current, hc, hlt⟩ := hs
  obtain ⟨row', hro', ha⟩ := (h.subscription ref).of_some hro
  obtain ⟨new, hn, hr⟩ := h.revision hc
  refine ⟨row', hro', entry, ?_, new, hn, Nat.lt_of_lt_of_le hlt hr⟩
  rw [ha.openedUnder]
  exact he

/-! ## Uses of a subscription -/

def Authorized (s : State) (ref : SubscriptionRef) : Prop :=
  ∃ row nowMs floor, s.publishedSubscriptions.get ref = some row ∧
    subjectAuthority s row.subject ref.subscriber row.result.stream row.result.exportName nowMs =
      .ok (row.result.publisherAuthority, floor)

theorem Stale.not_authorized (h : Stale s ref) : ¬Authorized s ref := by
  rintro ⟨row, nowMs, floor, hr, ha⟩
  obtain ⟨_, hf, entry, he, current, hc, hlt⟩ := h
  rw [hr] at hf
  cases hf
  rw [subjectAuthority_rows ha entry he] at hc
  cases hc
  exact Nat.lt_irrefl _ hlt

theorem ownSubscription_ok {store : MemoryFederationStore}
    (h : ownSubscription store subscriber ref = .ok ()) : subscriber = ref.subscriber := by
  simp only [ownSubscription, bind_ok, require_ok] at h
  obtain ⟨-, -, hs⟩ := h
  exact hs

theorem subscriptionOf_ok (h : subscriptionOf s subject ref = .ok row) :
    s.publishedSubscriptions.get ref = some row ∧ row.subject = subject := by
  simp only [subscriptionOf, bind_ok, orError_ok, require_ok] at h
  obtain ⟨_, hr, -, hs, h⟩ := h
  cases h
  exact ⟨hr, hs⟩

theorem authorized_of_checks
    (hsu : subscriber = ref.subscriber) (hr : s.publishedSubscriptions.get ref = some row)
    (hs : row.subject = subject)
    (h : currentAuthority s subject subscriber row.result nowMs = .ok ()) : Authorized s ref := by
  simp only [currentAuthority, bind_ok, require_ok] at h
  obtain ⟨⟨_, floor⟩, ha, rfl⟩ := h
  rw [← hs, hsu] at ha
  exact ⟨row, nowMs, floor, hr, ha⟩

def Request.uses : Request → Option SubscriptionRef
  | .inspectSubscriptionAs _ _ request => some request.subscription
  | .closeSubscriptionAs _ _ request => some request.subscription
  | .readAs _ _ request => some request.subscription
  | .acknowledgeAs _ _ request => some request.subscription
  | .authorizeSubscriptionDelivery _ request _ _ => some request.subscription
  | _ => none

theorem authorized_of_ok
    (hu : call.request.uses = some ref) (hok : (step sha384 localNode s call).1 = .ok answer) :
    Authorized s ref := by
  obtain ⟨decision, clock, request⟩ := call
  cases request with
  | inspectSubscriptionAs subject nowMs request =>
    cases hu
    obtain ⟨hc, t, _, _, hb, -⟩ := (transacted ..).of_ok rfl hok
    simp only [bind_ok] at hb
    obtain ⟨row, hr, _, ha, -⟩ := hb
    obtain ⟨hf, hs⟩ := subscriptionOf_ok hr
    exact authorized_of_checks (s := s) (ownSubscription_ok hc) hf hs ha
  | closeSubscriptionAs subject nowMs request =>
    cases hu
    obtain ⟨hc, t, _, _, hb, -⟩ := (transacted ..).of_ok rfl hok
    simp only [bind_ok] at hb
    obtain ⟨_, -, row, hr, _, ha, -⟩ := hb
    obtain ⟨hf, hs⟩ := subscriptionOf_ok hr
    exact authorized_of_checks (s := s) (ownSubscription_ok hc) hf hs ha
  | readAs subject nowMs request =>
    cases hu
    obtain ⟨hc, t, _, _, hb, -⟩ := (transacted ..).of_ok rfl hok
    simp only [bind_ok, require_ok] at hc hb
    obtain ⟨-, -, hsu, -⟩ := hc
    obtain ⟨row, hr, -, -, _, ha, -⟩ := hb
    obtain ⟨hf, hs⟩ := subscriptionOf_ok hr
    exact authorized_of_checks (s := s) hsu hf hs ha
  | acknowledgeAs subject nowMs request =>
    cases hu
    obtain ⟨hc, t, _, _, hb, -⟩ := (transacted ..).of_ok rfl hok
    simp only [bind_ok] at hb
    obtain ⟨row, hr, _, -, _, ha, -⟩ := hb
    obtain ⟨hf, hs⟩ := subscriptionOf_ok hr
    exact authorized_of_checks (s := s) (ownSubscription_ok hc) hf hs ha
  | authorizeSubscriptionDelivery subject request payload nowMs =>
    cases hu
    obtain ⟨_, hd, -⟩ := map_eq_ok.mp hok
    rw [authorizeSubscriptionDelivery] at hd
    cases hc : ownSubscription ⟨localNode, decision⟩ request.authenticatedSubscriber
        request.subscription with
    | error e =>
      rw [hc] at hd
      cases hd
    | ok u =>
      rw [hc] at hd
      simp only [guarded, bind_ok, orError_ok, require_ok] at hd
      obtain ⟨now, -, row, hr, -, ⟨hs, -⟩, ha⟩ := hd
      exact authorized_of_checks (ownSubscription_ok hc) hr hs ha
  | _ => cases hu

/-! ## Changes of a row -/

def Request.sets : Request → Option AuthorityRow
  | .setPeerAuthority peer _ _ => some (.peer peer)
  | .setExportAuthority peer exportName _ _ => some (.exported (peer, exportName))
  | .setSubjectGrant _ grant => some (.grant grant.key)
  | _ => none

theorem setSubjectGrant_ok {decision : Option FederationDecision} {clock : Clock}
    {expected : Option Nat} {grant : SubjectGrant}
    (hok : (step sha384 localNode s ⟨decision, clock, .setSubjectGrant expected grant⟩).1 =
      .ok answer) :
    ∃ stream revision t, s.streams.get grant.stream = some stream ∧
      Raises (s.revision (.grant grant.key)) revision ∧
      step sha384 localNode s ⟨decision, clock, .setSubjectGrant expected grant⟩ =
        (.ok (.revision revision), { s.sampled t with
          subjectGrants :=
            s.subjectGrants.set grant.key ⟨revision, grant, grant.floor stream⟩ }) := by
  obtain ⟨-, t, revision, s', hb, hs⟩ := (transacted ..).of_ok rfl hok
  simp only [bind_ok, orError_ok] at hb
  obtain ⟨-, -, stream, hst, _, hn, h⟩ := hb
  cases h
  exact ⟨stream, revision, t, hst, nextRevision_raises hn, hs⟩

theorem revised_of_ok {row : AuthorityRow} (hse : call.request.sets = some row)
    (hok : (step sha384 localNode s call).1 = .ok answer) :
    ∃ new, (step sha384 localNode s call).2.revision row = some new ∧
      Raises (s.revision row) new := by
  obtain ⟨decision, clock, request⟩ := call
  cases request with
  | setPeerAuthority peer expected enabled =>
    cases hse
    obtain ⟨-, t, next, _, hb, hs⟩ := (transacted ..).of_ok rfl hok
    simp only [bind_ok] at hb
    obtain ⟨_, hn, h⟩ := hb
    cases h
    rw [hs]
    refine ⟨next, ?_, nextRevision_raises hn⟩
    rw [State.revision, get_set_self]
    rfl
  | setExportAuthority peer exportName expected access =>
    cases hse
    obtain ⟨-, t, next, _, hb, hs⟩ := (transacted ..).of_ok rfl hok
    simp only [bind_ok] at hb
    obtain ⟨-, -, _, hn, h⟩ := hb
    cases h
    rw [hs]
    refine ⟨next, ?_, nextRevision_raises hn⟩
    rw [State.revision, get_set_self]
    rfl
  | setSubjectGrant expected grant =>
    cases hse
    obtain ⟨stream, next, t, -, hr, hs⟩ := setSubjectGrant_ok hok
    rw [hs]
    refine ⟨next, ?_, hr⟩
    rw [State.revision, get_set_self]
    rfl
  | _ => cases hse

theorem stale_of_ok {entry : AuthorityRow × Nat} (hc : Captured s)
    (hro : s.publishedSubscriptions.get ref = some row) (he : entry ∈ row.openedUnder ref)
    (hs : call.request.sets = some entry.1) (hok : (step sha384 localNode s call).1 = .ok answer)
    : Stale (step sha384 localNode s call).2 ref := by
  obtain ⟨new, hn, hr⟩ := revised_of_ok hs hok
  obtain ⟨current, hcu, hle⟩ := hc ref row hro entry he
  obtain ⟨t, hch⟩ := step_change sha384 localNode s call
  obtain ⟨row', hro', ha⟩ := (hch.subscription ref).of_some hro
  refine ⟨row', hro', entry, ?_, new, hn, Nat.lt_of_le_of_lt hle (hr current hcu)⟩
  rw [ha.openedUnder]
  exact he

theorem captured_run (limit : Nat) (calls : List Call) :
    Captured (run sha384 localNode (State.new limit) calls) := by
  refine Machine.run_invariant (I := Captured) (fun s call hc => ?_)
    (fun _ _ hr => by cases hr) calls
  obtain ⟨t, hch⟩ := step_change sha384 localNode s call
  exact hch.captured hc

theorem stale_run (h : Stale s ref) (calls : List Call) :
    Stale (run sha384 localNode s calls) ref := by
  refine Machine.run_invariant (I := fun s => Stale s ref) (fun s call hs => ?_) h calls
  obtain ⟨t, hc⟩ := step_change sha384 localNode s call
  exact hc.stale hs

end Xolotl.Federation
