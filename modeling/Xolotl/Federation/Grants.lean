import Xolotl.Federation.Revocation

/-! Grants hide history: what a subject reads under a grant lies after the floor the grant was set
with. -/

namespace Xolotl.Federation

open Word Fallible

variable {sha384 : Hash} {localNode : FederationNodeId} {s s' : State} {call : Call}
  {events : List Event}

/-! ## Grants and their floors -/

variable {key : HostedSubject × FederationNodeId × StreamRef} {row : SubjectGrantRow} {nowMs : Nat}

theorem Change.grantRow
    (h : Change sha384 localNode s call events s') (hro : s.subjectGrants.get key = some row) :
    ∃ row', s'.subjectGrants.get key = some row' ∧ (row' = row ∨ row.revision < row'.revision) := by
  cases h with
  | grant _ hr =>
    rename_i grant next stream _
    by_cases hs : key = grant.key
    · subst hs
      refine ⟨_, Table.get_set_self .., .inr (hr row.revision ?_)⟩
      rw [hro]
      rfl
    · exact ⟨row, (Table.get_set_of_ne _ _ hs).trans hro, .inl rfl⟩
  | release =>
    rename_i receipts _
    obtain ⟨_, _, hst⟩ := releaseLocked_state receipts s
    rw [hst]
    exact ⟨row, hro, .inl rfl⟩
  | _ => exact ⟨row, hro, .inl rfl⟩

def Standing (s : State) (key : HostedSubject × FederationNodeId × StreamRef)
    (row : SubjectGrantRow) : Prop :=
  ∃ current, s.subjectGrants.get key = some current ∧
    (current = row ∨ row.revision < current.revision)

theorem Change.standing
    (h : Change sha384 localNode s call events s') (hst : Standing s key row) :
    Standing s' key row := by
  obtain ⟨current, hc, hs⟩ := hst
  obtain ⟨new, hn, hr⟩ := h.grantRow hc
  refine ⟨new, hn, ?_⟩
  rcases hs with rfl | hl
  · exact hr
  · rcases hr with rfl | hr
    · exact .inr hl
    · exact .inr (hl.trans hr)

theorem standing_run (h : Standing s key row) (calls : List Call) :
    Standing (run sha384 localNode s calls) key row := by
  refine Machine.run_invariant (I := fun s => Standing s key row) (fun s call hs => ?_) h calls
  obtain ⟨t, hc⟩ := step_change sha384 localNode s call
  exact hc.standing hs

variable {floor : Nat} {ref : SubscriptionRef} {decision : Option FederationDecision}
  {clock : Clock} {request : ReadRequest} {page : ReadPage}

theorem subjectAuthority_floor {hosted : HostedSubject} {presenter : FederationNodeId}
    {stream : StreamRef} {exportName : ExportName} {current : AuthorityRevision}
    (h : subjectAuthority s (.hosted hosted) presenter stream exportName nowMs =
      .ok (current, floor)) :
    ∃ row, s.subjectGrants.get (hosted, presenter, stream) = some row ∧
      row.revision = current.exportRevision ∧ row.floor = floor := by
  simp only [subjectAuthority, bind_ok, orError_ok] at h
  obtain ⟨_, -, row, hr, -, -, h⟩ := h
  cases h
  exact ⟨row, hr, rfl, rfl⟩

theorem Ledger.floorStart {ref : StreamRef} {items : List Publication} {row : PublishedStream}
    {first start : Option Position} (h : Ledger ref items row)
    (hs : floorStart row floor first = .ok start) : floor ≤ sequenceOrZero start := by
  unfold Federation.floorStart at hs
  split at hs
  next hl =>
    cases hs
    cases first with
    | none => cases hl
    | some first => exact of_decide_eq_true hl
  next =>
    split at hs
    next hzero =>
      rw [hzero]
      exact Nat.zero_le _
    next hp =>
      split at hs
      · cases hs
      · split at hs
        next ha =>
          cases hs
          -- the floor is the anchor, and something has been retired
          obtain ⟨record, -, hr, hn⟩ := h.retained.anchor_eq (by omega)
          rw [h.anchored, hr]
          change floor ≤ record.sequence
          omega
        next =>
          simp only [bind_ok, orError_ok] at hs
          obtain ⟨record, hr, hs⟩ := hs
          cases hs
          have hn := h.retained.kept_numbered.getElem? hr
          change floor ≤ record.sequence
          omega

/-- A subscription opened under a grant that is still current starts at or after its floor. -/
def Floored (s : State) : Prop :=
  ∀ ref subscription hosted row, s.publishedSubscriptions.get ref = some subscription →
    subscription.subject = .hosted hosted →
    s.subjectGrants.get (hosted, ref.subscriber, subscription.result.stream) = some row →
    row.revision = subscription.result.publisherAuthority.exportRevision →
    row.floor ≤ sequenceOrZero subscription.result.start

theorem Captured.grant {subscription : PublishedSubscription}
    {hosted : HostedSubject} (h : Captured s)
    (hs : s.publishedSubscriptions.get ref = some subscription)
    (hh : subscription.subject = .hosted hosted) :
    ∃ row, s.subjectGrants.get (hosted, ref.subscriber, subscription.result.stream) = some row ∧
      subscription.result.publisherAuthority.exportRevision ≤ row.revision := by
  have he : (AuthorityRow.grant (hosted, ref.subscriber, subscription.result.stream),
      subscription.result.publisherAuthority.exportRevision) ∈ subscription.openedUnder ref := by
    rw [PublishedSubscription.openedUnder, hh]
    exact List.mem_cons_of_mem _ List.mem_cons_self
  obtain ⟨current, hc, hle⟩ := h ref subscription hs _ he
  obtain ⟨row, hr, rfl⟩ := Option.map_eq_some_iff.mp hc
  exact ⟨row, hr, hle⟩

theorem Change.floored (h : Change sha384 localNode s call events s') (hc : Captured s)
    (hl : ∀ ref row, s.streams.get ref = some row → ∃ items, Ledger ref items row)
    (hfl : Floored s) : Floored s' := by
  intro ref subscription' hosted row' hsu' hh hr' hcu
  -- the row of a current revision has not been set by this change
  have hk : ∀ {key row revision}, s'.subjectGrants.get key = some row' →
      s.subjectGrants.get key = some row → row'.revision = revision → revision ≤ row.revision →
      row' = row := by
    intro key row revision hr' hr hre hrc
    obtain ⟨_, hf, hs⟩ := h.grantRow hr
    cases hr'.symm.trans hf
    exact hs.resolve_right (by omega)
  rcases (h.subscription ref).origin hsu' with
    ⟨-, hrf, ho⟩ | ⟨subscription, hsu, had⟩
  · obtain ⟨stream, floor, first, nowMs, hst, ha, -, hsa⟩ := ho.start
    obtain ⟨items, hi⟩ := hl _ stream hst
    rw [hh, ho.presenter, hrf, ← ho.stream] at ha
    obtain ⟨row, hr, hre, rfl⟩ := subjectAuthority_floor ha
    rw [hk hr' hr hcu hre.ge]
    exact hi.floorStart hsa
  · rw [had.subject] at hh
    rw [had.result] at hr' hcu ⊢
    obtain ⟨row, hr, hrc⟩ := hc.grant hsu hh
    obtain rfl := hk hr' hr hcu hrc
    exact hfl ref subscription hosted row' hsu hh hr hcu

theorem floored_run (limit : Nat) (calls : List Call) :
    Floored (run sha384 localNode (State.new limit) calls) := by
  -- the floor needs the ledgers and the captured revisions of every state on the way
  induction calls using List.reverseRecOn with
  | nil => exact fun _ _ _ _ hs => nomatch hs
  | append_singleton calls call ih =>
    rw [run, Machine.run_append]
    obtain ⟨t, hc⟩ := step_change sha384 localNode
      (run sha384 localNode (State.new limit) calls) call
    exact hc.floored (captured_run limit calls)
      (fun ref row hr => ⟨_, (published_run limit calls).rows ref row hr⟩) ih

/-! ## Reads -/

theorem firstAfter_ok {row : PublishedStream} {after : Option Position} {first : Nat}
    (h : firstAfter row after = .ok first) : first = sequenceOrZero after + 1 := by
  cases after with
  | none =>
    cases h
    rfl
  | some position =>
    simp only [firstAfter, bind_ok, orError_ok] at h
    obtain ⟨_, -, hn⟩ := h
    exact (checkedSucc_eq_some.mp hn).2

theorem readAs_after {subject : FederationSubject} {subscription : PublishedSubscription}
    (hl : ∀ ref row, s.streams.get ref = some row → ∃ items, Ledger ref items row)
    (hok : (step sha384 localNode s ⟨decision, clock, .readAs subject nowMs request⟩).1 =
      .ok (.page page))
    (hsb : s.publishedSubscriptions.get request.subscription = some subscription) :
    subscription.subject = subject ∧
      request.authenticatedSubscriber = request.subscription.subscriber ∧
      ∀ record ∈ page.records, sequenceOrZero subscription.result.start < record.sequence := by
  obtain ⟨hc, t, page', s', hb, hst⟩ := (transacted ..).of_ok rfl hok
  rw [hst] at hok
  cases hok
  simp only [bind_ok, orError_ok, require_ok] at hc hb
  obtain ⟨-, -, hsu, -⟩ := hc
  obtain ⟨found, hf, -, -, -, -, stream, hsr, -, hba, first, hfs, -, hm, records, hp, h⟩ := hb
  obtain ⟨hr, hs⟩ := subscriptionOf_ok hf
  rw [show (s.sampled t).publishedSubscriptions.get request.subscription = some subscription
    from hsb] at hr
  cases hr
  cases h
  refine ⟨hs, hsu, fun record hre => ?_⟩
  obtain ⟨items, hi⟩ := hl _ stream hsr
  obtain ⟨more, rfl, hfr⟩ := pageRecords_ok hp
  -- the page is cut from what follows the first sequence, which lies after the start
  have hd : record ∈ stream.records.drop (first - stream.minimumAvailable) :=
    List.mem_of_mem_take (hfr.subset hre)
  have hbd := (hi.retained.kept_numbered.drop (first - stream.minimumAvailable)).bounds hd
  have hsa : sequenceOrZero subscription.result.start < first := by
    rw [firstAfter_ok hfs, Nat.lt_succ_iff]
    cases ha : request.after with
    | none => exact Nat.le_refl _
    | some after =>
      cases hsa : subscription.result.start with
      | none => exact Nat.zero_le _
      | some start => exact hba after ha start hsa
  omega

/-! ## Whole histories -/

/-- Once a row that a subscription was opened under has been set again, the subscription is of no
more use. -/
theorem refused_of_change (hc : Captured s)
    {row : PublishedSubscription} {entry : AuthorityRow × Nat} {change use : Call} {answer : Answer}
    (more : List Call) (hr : s.publishedSubscriptions.get ref = some row)
    (he : entry ∈ row.openedUnder ref) (hse : change.request.sets = some entry.1)
    (hok : (step sha384 localNode s change).1 = .ok answer) (hu : use.request.uses = some ref) :
    ∃ e, (step sha384 localNode (run sha384 localNode (step sha384 localNode s change).2 more)
      use).1 = .error e := by
  have hs := stale_of_ok hc hr he hse hok
  cases hus : (step sha384 localNode (run sha384 localNode (step sha384 localNode s change).2
      more) use).1 with
  | error e => exact ⟨e, rfl⟩
  | ok answer => exact absurd (authorized_of_ok hu hus) (stale_run hs more).not_authorized

theorem read_after_floor {limit : Nat} {log : List Event} {hosted : HostedSubject}
    {subscription : PublishedSubscription} (hp : Published localNode limit log s)
    (hfl : Floored s)
    (hsb : s.publishedSubscriptions.get request.subscription = some subscription)
    (hr : s.subjectGrants.get
      (hosted, request.authenticatedSubscriber, subscription.result.stream) = some row)
    (hok : (step sha384 localNode s ⟨decision, clock, .readAs (.hosted hosted) nowMs request⟩).1 =
      .ok (.page page)) : ∀ record ∈ page.records, row.floor < record.sequence := by
  obtain ⟨hs, hsu, haf⟩ := readAs_after (fun ref row hr => ⟨_, hp.rows ref row hr⟩) hok hsb
  obtain ⟨found, _, floor, hf, ha⟩ := authorized_of_ok rfl hok
  rw [hsb] at hf
  cases hf
  rw [hs] at ha
  rw [hsu] at hr
  -- the read has just found the grant at the revision the subscription was opened with
  obtain ⟨_, hc, hre, -⟩ := subjectAuthority_floor ha
  rw [hr] at hc
  cases hc
  have hst := hfl _ subscription hosted row hsb hs hr hre
  exact fun record hrc => Nat.lt_of_le_of_lt hst (haf record hrc)

/-- Federated reads are revocable and keep to the history of their grant. -/
theorem federated_reads_are_revocable (sha384 : Hash) (localNode : FederationNodeId) (limit : Nat)
    (calls : List Call) :
    let s := run sha384 localNode (State.new limit) calls
    (∀ ref row entry change answer more use, s.publishedSubscriptions.get ref = some row →
      entry ∈ row.openedUnder ref → change.request.sets = some entry.1 →
      (step sha384 localNode s change).1 = .ok answer → use.request.uses = some ref →
      ∃ e, (step sha384 localNode
        (run sha384 localNode (step sha384 localNode s change).2 more) use).1 = .error e) ∧
    (∀ (change : Call) expected grant stream revision more,
      change.request = .setSubjectGrant expected grant → grant.history = .fromGrant →
      s.streams.get grant.stream = some stream →
      (step sha384 localNode s change).1 = .ok (.revision revision) →
      let later := run sha384 localNode (step sha384 localNode s change).2 more
      later.revision (.grant grant.key) = some revision →
      ∀ decision clock nowMs request page subscription,
        later.publishedSubscriptions.get request.subscription = some subscription →
        subscription.result.stream = grant.stream →
        request.authenticatedSubscriber = grant.presenter →
        (step sha384 localNode later
          ⟨decision, clock, .readAs (.hosted grant.subject) nowMs request⟩).1 = .ok (.page page) →
        ∀ record ∈ page.records, sequenceOrZero stream.head < record.sequence) := by
  intro s
  refine ⟨?_, ?_⟩
  · intro ref row entry change answer more use hrow hentry hsets hok huses
    exact refused_of_change (captured_run limit calls) more hrow hentry hsets hok huses
  · rintro ⟨decision₁, clock₁, _⟩ expected grant stream revision more rfl hhistory
      hstream hset later
      hcurrent decision clock nowMs request page subscription hsubscription hsame hpresenter hread
    have hlater : later = run sha384 localNode (State.new limit)
        (calls ++ ⟨decision₁, clock₁, .setSubjectGrant expected grant⟩ :: more) := by
      rw [run, Machine.run_append]
      rfl
    obtain ⟨found, set, t, hfound, -, hstep⟩ := setSubjectGrant_ok hset
    rw [hstream] at hfound
    cases hfound
    have hrevision : set = revision := by
      rw [hstep] at hset
      cases hset
      rfl
    subst hrevision
    have hstanding : Standing later grant.key ⟨set, grant, grant.floor stream⟩ := by
      refine standing_run ?_ more
      rw [hstep]
      exact ⟨_, Table.get_set_self .., .inl rfl⟩
    obtain ⟨row, hrow, hstands⟩ := hstanding
    have hunraised : row.revision = set := by
      rw [State.revision, hrow] at hcurrent
      exact Option.some.inj hcurrent
    obtain rfl := hstands.resolve_right fun hraised => absurd hunraised (Nat.ne_of_gt hraised)
    have hfloor : grant.floor stream = sequenceOrZero stream.head := by
      rw [SubjectGrant.floor, hhistory]
    rw [SubjectGrant.key, ← hsame, ← hpresenter] at hrow
    rw [← hfloor]
    exact read_after_floor (hlater ▸ published_run limit _) (hlater ▸ floored_run limit _)
      hsubscription hrow hread

namespace Sample

def hosted : HostedSubject := ⟨⟨fixed 48 9⟩, "site", "reader"⟩

def grant : SubjectGrant := ⟨hosted, node 2, stream, 0, 100, .fromGrant, true⟩

def beforeGrant : List Call :=
  [own (.setPeerAuthority (node 2) none true), own (.declareStream ⟨stream, exportName⟩),
    own (.appendPublished (publish 1 1 7))]

def setGrant : Call := own (.setSubjectGrant none grant)

def afterGrant : List Call :=
  [own (.appendPublished (publish 1 2 8)),
    own (.openAs (.hosted hosted) 5
      ⟨node 2, ⟨fixed 16 2⟩, ⟨node 2, ⟨fixed 16 2⟩⟩, stream, none, .all⟩)]

def granted : State :=
  run checksum here (State.new 4) (beforeGrant ++ setGrant :: afterGrant)

def readRequest : ReadRequest := ⟨node 2, ⟨node 2, ⟨fixed 16 2⟩⟩, none, 8, 64⟩

def readCall : Call := own (.readAs (.hosted hosted) 5 readRequest)

def readPage : ReadPage :=
  (readAs ⟨here, none⟩ (.ok 0) granted (.hosted hosted) 5 readRequest).1.toOption.getD ⟨[], none, 0⟩

def subscription : PublishedSubscription :=
  (granted.publishedSubscriptions.get readRequest.subscription).getD
    ⟨⟨node 2, ⟨fixed 16 2⟩, readRequest.subscription, stream, none, .all⟩, .hosted hosted,
      ⟨⟨fixed 16 2⟩, readRequest.subscription, stream, exportName, ⟨0, 0⟩, 0, none⟩, none, none⟩

def enableAgain : Call := own (.setPeerAuthority (node 2) (some 1) true)

end Sample

open Sample in
theorem federated_reads_are_revocable_granted :
    readPage.records.map Record.sequence = [2] ∧
    (∀ record ∈ readPage.records, 1 < record.sequence) ∧
    ∃ e, (step checksum here (step checksum here granted enableAgain).2 readCall).1 = .error e := by
  have hrow : granted.publishedSubscriptions.get readRequest.subscription = some subscription := rfl
  have hread : (step checksum here granted readCall).1 = .ok (.page readPage) := by decide +kernel
  have hlater : run checksum here (step checksum here
      (run checksum here (State.new 4) beforeGrant) setGrant).2 afterGrant = granted := by
    rw [granted, run, run, run, Machine.run_append]
    rfl
  refine ⟨by decide +kernel, ?_, ?_⟩
  · have hfloor := (federated_reads_are_revocable checksum here 4 beforeGrant).2 setGrant none grant
      (((run checksum here (State.new 4) beforeGrant).streams.get stream).getD
        (.declare ⟨stream, exportName⟩)) 1 afterGrant rfl rfl rfl (by decide +kernel)
    rw [hlater] at hfloor
    exact hfloor (by decide +kernel) none (.error .trustedTimeUnavailable) 5 readRequest readPage
      subscription hrow (by decide +kernel) rfl hread
  · refine (federated_reads_are_revocable checksum here 4
      (beforeGrant ++ setGrant :: afterGrant)).1 readRequest.subscription subscription
      (.peer (node 2), 1) enableAgain (.revision 2) [] readCall hrow (by decide +kernel) rfl ?_ rfl
    decide +kernel

end Xolotl.Federation
