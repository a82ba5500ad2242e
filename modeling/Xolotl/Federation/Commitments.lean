import Xolotl.Federation.Publication

/-! Replica commitments: no retirement removes a record that a binding member has not passed. -/

namespace Xolotl.Federation

open Word Fallible Table

variable {sha384 : Hash} {localNode : FederationNodeId} {s s' : State} {call : Call}
  {events : List Event}

/-! ## Subscriptions over time -/

structure PublishedSubscription.Advances (row row' : PublishedSubscription) : Prop where
  subject : row'.subject = row.subject
  result : row'.result = row.result
  frontier : sequenceOrZero row.frontier ≤ sequenceOrZero row'.frontier

theorem PublishedSubscription.Advances.refl (row : PublishedSubscription) : row.Advances row :=
  ⟨rfl, rfl, Nat.le_refl _⟩

theorem Acknowledges.advances {ref : SubscriptionRef} {row : PublishedSubscription}
    {position : Position} (h : Acknowledges s ref row position) :
    row.Advances { row with acknowledged := some position } := by
  refine ⟨rfl, rfl, ?_⟩
  change sequenceOrZero (row.acknowledged.or row.result.start) ≤ position.sequence
  cases ha : row.acknowledged with
  | some acknowledged => exact Nat.le_of_lt (h.later acknowledged ha)
  | none =>
    cases hs : row.result.start with
    | some start => exact Nat.le_of_lt (h.start start hs)
    | none => exact Nat.zero_le _

theorem Change.subscription (h : Change sha384 localNode s call events s') (ref : SubscriptionRef) :
    Table.Turns
      (fun row => row.request.subscription = ref ∧ Opens s row.subject row.request row.result)
      PublishedSubscription.Advances
      (s.publishedSubscriptions.get ref) (s'.publishedSubscriptions.get ref) := by
  cases h with
  | opened ho =>
    refine .set .refl ?_
    rintro rfl
    rw [ho.fresh]
    exact .appears ⟨rfl, ho⟩
  | closed hr =>
    refine .set .refl ?_
    rintro rfl
    rw [hr]
    exact .moves ⟨rfl, rfl, Nat.le_refl _⟩
  | acknowledged ha =>
    refine .set .refl ?_
    rintro rfl
    rw [ha.found]
    exact .moves ha.advances
  | release =>
    rename_i receipts _
    obtain ⟨streams, count, hst⟩ := releaseLocked_state receipts s
    rw [hst]
    exact .same .refl _
  | _ => exact .same .refl _

/-! ## The active frontier -/

theorem lowerFrontier_le (lowest : Option (Option Position)) (frontier : Option Position) :
    sequenceOrZero (lowerFrontier lowest frontier) ≤ sequenceOrZero frontier ∧
      ∀ old ∈ lowest, sequenceOrZero (lowerFrontier lowest frontier) ≤ sequenceOrZero old := by
  match lowest, frontier with
  | none, frontier => exact ⟨Nat.le_refl _, nofun⟩
  | some none, frontier => exact ⟨Nat.zero_le _, fun _ _ => Nat.zero_le _⟩
  | some (some old), none => exact ⟨Nat.zero_le _, fun _ _ => Nat.zero_le _⟩
  | some (some old), some current =>
    rw [lowerFrontier]
    split
    next hle =>
      refine ⟨hle, fun other ho => ?_⟩
      cases ho
      exact Nat.le_refl _
    next hlt =>
      refine ⟨Nat.le_refl _, fun other ho => ?_⟩
      cases ho
      exact Nat.le_of_lt (Nat.lt_of_not_le hlt)

variable {ref : StreamRef} {row : PublishedStream} {member : ReplicaMember} {expiryAt : Option Nat}

theorem ReplicaMember.view_ok {view : ReplicaMemberView} (h : member.view s = .ok view) :
    ∃ row, s.publishedSubscriptions.get member.spec.subscription = some row ∧
      view.acknowledged.or view.baseline = row.frontier := by
  simp only [ReplicaMember.view, bind_ok] at h
  obtain ⟨⟨baseline, acknowledged⟩, hr, h⟩ := h
  cases h
  obtain ⟨row, hro, -, hf⟩ := subscriptionReceipt_ok hr
  exact ⟨row, hro, hf⟩

def ReplicaMember.Binds (member : ReplicaMember) (expiryAt : Option Nat) : Prop :=
  member.retired = false ∧ ∀ now ∈ expiryAt, member.expired now = false

theorem ReplicaMember.binds_iff :
    member.Binds expiryAt ↔ ¬(member.retired = true ∨ expiryAt.any member.expired = true) := by
  cases expiryAt <;> simp [Binds]

theorem scanFrontier_ok {stream : StreamRef}
    {rows : List ((StreamRef × FederationNodeId) × ReplicaMember)} {count : Nat}
    {lowest result : Option (Option Position)}
    (h : scanFrontier s stream expiryAt rows count lowest = .ok result) :
    (∀ old ∈ lowest, ∃ frontier ∈ result, sequenceOrZero frontier ≤ sequenceOrZero old) ∧
    ∀ entry ∈ rows, entry.1.1 = stream → entry.2.Binds expiryAt →
      ∃ row, s.publishedSubscriptions.get entry.2.spec.subscription = some row ∧
        ∃ frontier ∈ result, sequenceOrZero frontier ≤ sequenceOrZero row.frontier := by
  induction rows generalizing count lowest with
  | nil =>
    cases h
    exact ⟨fun old hold => ⟨old, hold, Nat.le_refl _⟩, nofun⟩
  | cons entry rows ih =>
    unfold scanFrontier at h
    split at h
    next ho =>
      obtain ⟨hl, hr⟩ := ih h
      refine ⟨hl, List.forall_mem_cons.mpr ⟨fun hk => ?_, hr⟩⟩
      exact absurd hk ho
    next =>
      split at h
      · cases h
      · split at h
        next hf =>
          obtain ⟨hl, hr⟩ := ih h
          refine ⟨hl, List.forall_mem_cons.mpr ⟨fun _ hb => ?_, hr⟩⟩
          exact absurd hf (ReplicaMember.binds_iff.mp hb)
        next =>
          obtain ⟨view, hv, h⟩ := bind_ok.mp h
          obtain ⟨row, hro, hrc⟩ := ReplicaMember.view_ok hv
          obtain ⟨hl, hr⟩ := ih h
          obtain ⟨frontier, hre, hle⟩ := hl _ rfl
          obtain ⟨hn, hold⟩ := lowerFrontier_le lowest (view.acknowledged.or view.baseline)
          refine ⟨fun old hm => ⟨frontier, hre, hle.trans (hold old hm)⟩,
            List.forall_mem_cons.mpr ⟨fun _ _ => ?_, hr⟩⟩
          exact ⟨row, hro, frontier, hre, hrc ▸ hle.trans hn⟩

theorem permittedThrough_ok {stream : StreamRef} {through : Position}
    (h : permittedThrough s stream through expiryAt = .ok ()) {node : FederationNodeId}
    (hm : s.replicaMembers.get (stream, node) = some member) (hb : member.Binds expiryAt) :
    ∃ row, s.publishedSubscriptions.get member.spec.subscription = some row ∧
      through.sequence ≤ sequenceOrZero row.frontier := by
  obtain ⟨result, hs, h⟩ := bind_ok.mp h
  obtain ⟨row, hr, frontier, hf, hle⟩ := (scanFrontier_ok hs).2 (_, member) (mem_rows.mpr hm) rfl hb
  refine ⟨row, hr, ?_⟩
  cases hf
  cases frontier with
  | none => cases h
  | some frontier => exact (require_ok.mp h).1.trans hle

/-! ## Commitments -/

def Covered (streams : Table StreamRef PublishedStream)
    (subscriptions : Table SubscriptionRef PublishedSubscription) (ref : StreamRef)
    (member : ReplicaMember) : Prop :=
  ∃ row subscription, streams.get ref = some row ∧
    subscriptions.get member.spec.subscription = some subscription ∧
    row.minimumAvailable - 1 ≤ sequenceOrZero subscription.frontier

def Committed (s : State) : Prop :=
  ∀ ref node member, s.replicaMembers.get (ref, node) = some member → member.retired = false →
    Covered s.streams s.publishedSubscriptions ref member

def Keeps (streams streams' : Table StreamRef PublishedStream) : Prop :=
  ∀ ref row, streams.get ref = some row →
    ∃ row', streams'.get ref = some row' ∧ row'.minimumAvailable = row.minimumAvailable

theorem Keeps.set {row' : PublishedStream} (hr : s.streams.get ref = some row)
    (hs : row'.minimumAvailable = row.minimumAvailable) :
    Keeps s.streams (s.streams.set ref row') := by
  intro other found hf
  by_cases heq : other = ref
  · subst heq
    rw [hr] at hf
    cases hf
    exact ⟨row', get_set_self .., hs⟩
  · exact ⟨found, (get_set_of_ne _ _ heq).trans hf, rfl⟩

theorem Committed.frame (h : Committed s) (hm : s'.replicaMembers = s.replicaMembers)
    (hst : Keeps s.streams s'.streams)
    (hch : Change sha384 localNode s call events s') : Committed s' := by
  intro ref node member hmb hl
  rw [hm] at hmb
  obtain ⟨row, subscription, hr, hsu, hc⟩ := h ref node member hmb hl
  obtain ⟨row', hr', hs⟩ := hst ref row hr
  obtain ⟨subscription', hsu', ha⟩ := (hch.subscription _).of_some hsu
  refine ⟨row', subscription', hr', hsu', ?_⟩
  rw [hs]
  exact hc.trans ha.frontier

theorem Retires.covered {stream : StreamRef}
    {streams : Table StreamRef PublishedStream} {node : FederationNodeId}
    (h : Retires s stream expiryAt streams) (hc : Committed s)
    (hm : s.replicaMembers.get (ref, node) = some member) (hl : member.retired = false)
    (hb : ref = stream → member.Binds expiryAt) :
    Covered streams s.publishedSubscriptions ref member := by
  obtain ⟨row, subscription, hr, hsu, hco⟩ := hc ref node member hm hl
  cases h with
  | nothing => exact ⟨row, subscription, hr, hsu, hco⟩
  | planned hp =>
    by_cases hs : ref = stream
    · subst hs
      obtain ⟨_, hf, hpa⟩ := permittedThrough_ok hp.permitted hm (hb rfl)
      refine ⟨_, _, get_set_self .., hf, ?_⟩
      rw [PublishedStream.retire, hp.next]
      exact hpa
    · exact ⟨row, subscription, (get_set_of_ne _ _ hs).trans hr, hsu, hco⟩

theorem Joins.covered {spec : ReplicaMemberSpec} {revision : Nat} (h : Joins s spec) :
    Covered s.streams s.publishedSubscriptions spec.stream ⟨spec, revision, false⟩ := by
  obtain ⟨stream, row, hs, hr, -, hf⟩ := h.commits
  exact ⟨stream, row, hs, hr, hf⟩

theorem Change.committed (h : Change sha384 localNode s call events s') (hc : Committed s) :
    Committed s' := by
  have hcg := h
  cases h with
  | declare _ hn =>
    refine hc.frame rfl (fun ref row hro => ?_) hcg
    refine ⟨row, (get_set_of_ne _ _ ?_).trans hro, rfl⟩
    rintro rfl
    rw [hn] at hro
    cases hro
  | append ha => exact hc.frame rfl (.set ha.row rfl) hcg
  | closeEpoch hro => exact hc.frame rfl (.set hro rfl) hcg
  | release hch =>
    rename_i receipts
    obtain ⟨_, streams', hrl, -, ht⟩ := releaseIdentities_spec 0 (checkReceipts_ok hch)
    obtain ⟨_, _, hst⟩ := releaseLocked_state receipts s
    refine hc.frame (by rw [hst]) (fun ref row hro => ?_) hcg
    obtain ⟨row', hro', _, rfl, -⟩ := (ht ref).of_some hro
    rw [streams_releaseLocked, hrl]
    exact ⟨_, hro', rfl⟩
  | retire hr =>
    intro ref node member hm hl
    exact hr.covered hc hm hl fun _ => ⟨hl, nofun⟩
  | maintain _ _ hr he =>
    intro ref node member' hm' hl'
    -- a member that is still live was live before, and its lease has not run out
    cases hm : s.replicaMembers.get (ref, node) with
    | none =>
      have hab := he.1 _ hm
      rw [hm'] at hab
      cases hab
    | some member =>
      obtain ⟨_, hf, hsp, hre⟩ := he.2 _ member hm
      rw [hm'] at hf
      cases hf
      rw [hl', Bool.false_eq_true, false_iff, not_or] at hre
      have hl : member.retired = false := Bool.eq_false_iff.mpr hre.1
      have hco := hr.covered hc hm hl fun hs => ⟨hl, fun now hno => by
        cases hno
        exact Bool.eq_false_iff.mpr fun hex => hre.2 ⟨hs, hex⟩⟩
      unfold Covered at ⊢
      rw [hsp]
      exact hco
  | joined hj =>
    rename_i spec revision nowMs
    intro ref node member hm hl
    by_cases hs : (ref, node) = (spec.stream, spec.member)
    · have hg : (s.replicaMembers.set (spec.stream, spec.member) ⟨spec, revision, false⟩).get
          (ref, node) = some member := hm
      rw [hs, get_set_self] at hg
      cases hg
      cases hs
      exact hj.covered
    · exact hc ref node member ((get_set_of_ne _ _ hs).symm.trans hm) hl
  | member hold hl hsp =>
    rename_i key old updated nowMs
    intro ref node member hm hl'
    by_cases hs : (ref, node) = key
    · subst hs
      have hg : (s.replicaMembers.set (ref, node) updated).get (ref, node) = some member := hm
      rw [get_set_self] at hg
      cases hg
      have hco := hc ref node old hold hl
      unfold Covered at ⊢
      rw [hsp]
      exact hco
    · exact hc ref node member ((get_set_of_ne _ _ hs).symm.trans hm) hl'
  | _ => exact hc.frame rfl (fun _ row hro => ⟨row, hro, rfl⟩) hcg

/-! ## Removed records -/

theorem PublishedStream.Moves.removed {row' : PublishedStream}
    {items new : List Publication} {record : Record}
    (h : row.Moves sha384 localNode s s' call ref new row') (hl : Ledger ref items row)
    (hr : record ∈ row.records) (hg : record ∉ row'.records) :
    ∃ expiryAt through plan, (∀ now ∈ expiryAt, call.Maintains localNode s s' ref now) ∧
      Planned s ref expiryAt row through plan ∧ record.sequence ≤ through.sequence := by
  cases h with
  | same => exact absurd hr hg
  | push => exact absurd (List.mem_append_left _ hr) hg
  | closeEpoch => exact absurd hr hg
  | release hre =>
    obtain ⟨_, rfl, -⟩ := hre
    exact absurd hr hg
  | @retire expiryAt through plan hc hp =>
    refine ⟨expiryAt, through, plan, hc, hp, ?_⟩
    have hlt := hl.retained.kept_numbered.lt_of_dropped hr hg
    have hpo := hl.first
    have hf := hp.first
    have hcn := hp.count
    omega

theorem ReplicaMember.expired_iff {now : Nat} (hl : member.retired = false) :
    member.expired now = true ↔ ∃ deadline, member.spec.term = .leaseUntilMs deadline ∧
      deadline ≤ now := by
  unfold expired
  cases member.spec.term <;> simp [hl]

def Passed (s : State) (member : ReplicaMember) (record : Record) : Prop :=
  ∃ subscription, s.publishedSubscriptions.get member.spec.subscription = some subscription ∧
    record.sequence ≤ sequenceOrZero (subscription.acknowledged.or subscription.result.start)

def Lapsed (localNode : FederationNodeId) (call : Call) (s' : State) (ref : StreamRef)
    (node : FederationNodeId) (member : ReplicaMember) : Prop :=
  (∃ deadline nowMs maxRecords, member.spec.term = .leaseUntilMs deadline ∧
    call.request = .retireReplicaSafeHistory ref nowMs maxRecords ∧
    deadline ≤ MemoryFederationStore.decisionTime ⟨localNode, call.decision⟩ s' nowMs) ∧
  ∃ member', s'.replicaMembers.get (ref, node) = some member' ∧ member'.retired = true

theorem Call.Maintains.lapsed {node : FederationNodeId}
    {now : Nat} (h : call.Maintains localNode s s' ref now)
    (hm : s.replicaMembers.get (ref, node) = some member) (hl : member.retired = false)
    (he : member.expired now = true) : Lapsed localNode call s' ref node member := by
  obtain ⟨nowMs, maxRecords, hre, rfl⟩ := h.request
  obtain ⟨deadline, ht, hd⟩ := (ReplicaMember.expired_iff hl).mp he
  obtain ⟨member', hm', -, hr⟩ := h.expires.2 _ member hm
  exact ⟨⟨deadline, nowMs, maxRecords, ht, hre, hd⟩, member', hm', hr.mpr (.inr ⟨rfl, he⟩)⟩

theorem Change.passed_or_lapsed {items : List Publication}
    {record : Record} {node : FederationNodeId}
    (h : Change sha384 localNode s call events s') (hlg : Ledger ref items row)
    (hr : s.streams.get ref = some row) (hre : record ∈ row.records)
    (hg : ∀ row', s'.streams.get ref = some row' → record ∉ row'.records)
    (hmb : s.replicaMembers.get (ref, node) = some member) (hl : member.retired = false) :
    Passed s member record ∨ Lapsed localNode call s' ref node member := by
  obtain ⟨row', hr', hm⟩ := (h.stream ref).of_some hr
  obtain ⟨expiryAt, through, plan, hc, hp, hle⟩ := hm.removed hlg hre (hg row' hr')
  by_cases hb : member.Binds expiryAt
  · obtain ⟨subscription, hs, hpa⟩ := permittedThrough_ok hp.permitted hmb hb
    exact .inl ⟨subscription, hs, hle.trans hpa⟩
  · rw [ReplicaMember.Binds, not_and] at hb
    obtain ⟨now, hbound⟩ := not_forall.mp (hb hl)
    obtain ⟨hn, he⟩ := Classical.not_imp.mp hbound
    exact .inr ((hc now hn).lapsed hmb hl (Bool.not_eq_false _ |>.mp he))

theorem committed_run (limit : Nat) (calls : List Call) :
    Committed (run sha384 localNode (State.new limit) calls) := by
  refine Machine.run_invariant (I := Committed) (fun s call hc => ?_) (fun _ _ _ h => by cases h)
    calls
  obtain ⟨t, hch⟩ := step_change sha384 localNode s call
  exact hch.committed hc

/-- Replica commitments protect history: a record is removed only when every member that is not
retired has passed it or lapses by that call; so no member that is not retired misses anything, and
what is retained runs from the first available sequence to the head. -/
theorem replica_commitments_protect_history (sha384 : Hash) (localNode : FederationNodeId)
    (limit : Nat) (calls : List Call) :
    let s := run sha384 localNode (State.new limit) calls
    (∀ call ref row record node member, s.streams.get ref = some row → record ∈ row.records →
      (∀ row', (step sha384 localNode s call).2.streams.get ref = some row' →
        record ∉ row'.records) →
      s.replicaMembers.get (ref, node) = some member → member.retired = false →
      Passed s member record ∨
        Lapsed localNode call (step sha384 localNode s call).2 ref node member) ∧
    (∀ ref node member, s.replicaMembers.get (ref, node) = some member → member.retired = false →
      ∃ row subscription, s.streams.get ref = some row ∧
        s.publishedSubscriptions.get member.spec.subscription = some subscription ∧
        row.minimumAvailable - 1 ≤
          sequenceOrZero (subscription.acknowledged.or subscription.result.start)) ∧
    (∀ ref row, s.streams.get ref = some row → row.records.map Record.sequence =
      List.range' row.minimumAvailable (sequenceOrZero row.head + 1 - row.minimumAvailable)) := by
  intro s
  have hpublished : Published localNode limit _ s := published_run limit calls
  refine ⟨?_, committed_run limit calls,
    fun ref row hrow => (hpublished.rows ref row hrow).records_eq⟩
  intro call ref row record node member hrow hrecord hgone hmember hlive
  obtain ⟨t, hchange⟩ := step_change sha384 localNode s call
  exact hchange.passed_or_lapsed (hpublished.rows ref row hrow) hrow hrecord hgone hmember hlive

namespace Sample

def admitPeer (id : UInt8) : List Call :=
  [own (.setPeerAuthority (node id) none true),
    own (.setExportAuthority (node id) exportName none ⟨true, true⟩),
    own (.openAs (.node (node id)) 0
      ⟨node id, ⟨fixed 16 id⟩, ⟨node id, ⟨fixed 16 id⟩⟩, stream, none, .all⟩)]

def join (id : UInt8) (term : ReplicaRetentionTerm) : Call :=
  own (.joinReplica ⟨stream, node id, ⟨node id, ⟨fixed 16 id⟩⟩, term⟩ none 1)

def firstPosition : Position :=
  ⟨1, (((Record.new checksum ((publish 1 1 7).intoParts 1)).toOption.map Record.digest).getD
    ⟨fixed 48 0⟩), by decide, by decide⟩

def replicating : List Call :=
  [own (.declareStream ⟨stream, exportName⟩), own (.appendPublished (publish 1 1 7))]
    ++ admitPeer 2 ++ admitPeer 3 ++ [join 2 .permanent, join 3 (.leaseUntilMs 10),
      own (.acknowledgeAs (.node (node 2)) 0
        ⟨node 2, ⟨node 2, ⟨fixed 16 2⟩⟩, firstPosition⟩)]

def replicated : State := run checksum here (State.new 4) replicating

def maintenance : Call := own (.retireReplicaSafeHistory stream 20 8)

end Sample

open Sample in
theorem replica_commitments_protect_history_maintained : recordCount replicated stream = 1 ∧
    ((step checksum here replicated maintenance).2.streams.get stream).map PublishedStream.records =
      some [] ∧
    ∀ row ∈ replicated.streams.get stream, ∀ record ∈ row.records, ∀ id ∈ [2, 3],
      ∀ member ∈ replicated.replicaMembers.get (stream, node id),
        Passed replicated member record ∨
          Lapsed here maintenance (step checksum here replicated maintenance).2 stream (node id)
            member := by
  have hempty : ((step checksum here replicated maintenance).2.streams.get stream).map
      PublishedStream.records = some [] := by decide +kernel
  have hlive : ∀ id ∈ [2, 3], ∀ member ∈ replicated.replicaMembers.get (stream, node id),
      member.retired = false := by decide +kernel
  refine ⟨by decide +kernel, hempty, fun row hrow record hrecord id hid member hmember => ?_⟩
  refine (replica_commitments_protect_history checksum here 4 replicating).1 maintenance stream row
    record (node id) member hrow hrecord (fun row' hrow' => ?_) hmember
      (hlive id hid member hmember)
  rw [replicated, hrow', Option.map_some, Option.some.injEq] at hempty
  rw [hempty]
  exact List.not_mem_nil

end Xolotl.Federation
