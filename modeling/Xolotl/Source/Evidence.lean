import Xolotl.Source.History
import Xolotl.Source.Sweep

/-! Receipts and decisions: each retained decision has its receipt, each receipt its decision, and
the rows of the private maps stay within their limits. -/

namespace Xolotl.Source

open Xolotl.Types Xolotl.State Word OrderedMap SourceMemory

variable {host : Host} {options : InMemoryOptions} {m m' : SourceMemory} {log : List Acceptance}

def SourceReceipt.name (receipt : SourceReceipt) : EventName :=
  ⟨⟨receipt.installationId, receipt.projectionId, receipt.scopeEpoch⟩, receipt.streamEpoch,
    receipt.eventId⟩

def SourceEventDecisionInspection.name (request : SourceEventDecisionInspection) : EventName :=
  ⟨⟨request.installationId, request.projectionId, request.scopeEpoch⟩, request.streamEpoch,
    request.eventId⟩

variable {receipt : SourceReceipt} {claim : SourceClaim} {key : Bytes} {request : SourceCommit}
  {decisionAtMs : Int}

theorem receiptMatches_iff : receiptMatches receipt claim = true ↔
      receipt.name = claim.name ∧ receipt.claimId = claim.claimId := by
  unfold receiptMatches SourceReceipt.name SourceClaim.name SourceClaim.scope
  simp only [Bool.and_eq_true, beq_iff_eq, EventName.mk.injEq, ScopeName.mk.injEq, and_assoc]

/-! ## The invariant -/

/-- Rows are filed under the keys of names, decisions and receipts under keys of the same name. -/
structure Evident (m : SourceMemory) : Prop where
  events : ∀ key record, m.events.get key = some record →
    ∃ name : EventName, name.Valid ∧ key = name.key
  rates : ∀ key record, m.rates.get key = some record →
    ∃ scope : ScopeName, scope.Named ∧ scope.epoch ≠ 0 ∧ key = scope.key kindRate
  streams : ∀ key row, m.sequences.get key = some row →
    ∃ name : StreamName, name.Named ∧ name.scope.epoch ≠ 0 ∧ key = name.key
  proven : ∀ name : EventName, ∀ record, name.Valid → m.events.get name.key = some record →
    ∃ receipt, m.receipts.get (name.claimKey record.claimId) = some receipt ∧
      receipt.name = name ∧ receipt.claimId = record.claimId
  decided : ∀ key receipt, m.receipts.get key = some receipt →
    ∃ name : EventName, ∃ record, name.Valid ∧ m.events.get name.key = some record ∧
      key = name.claimKey record.claimId

structure Bounded (options : InMemoryOptions) (m : SourceMemory) : Prop where
  retention : m.events.size + m.rates.size ≤ options.sourceRetentionLimit
  streams : m.sequences.size ≤ options.sourceStreamLimit

theorem evident_empty : Evident .empty := ⟨nofun, nofun, nofun, nofun, nofun⟩

theorem Evident.congr (h : Evident m) (he : m'.events = m.events) (hra : m'.rates = m.rates)
    (hs : m'.sequences = m.sequences) (hr : m'.receipts = m.receipts) : Evident m' := by
  refine ⟨?_, ?_, ?_, ?_, ?_⟩
  · rw [he]
    exact h.events
  · rw [hra]
    exact h.rates
  · rw [hs]
    exact h.streams
  · rw [he, hr]
    exact h.proven
  · rw [he, hr]
    exact h.decided

theorem Evident.of_streams (h : Evident m) (he : m'.events = m.events)
    (hr : m'.rates = m.rates) (hrc : m'.receipts = m.receipts)
    (hst : ∀ key row, m'.sequences.get key = some row →
      (∃ row, m.sequences.get key = some row) ∨
        ∃ name : StreamName, name.Named ∧ name.scope.epoch ≠ 0 ∧ key = name.key) : Evident m' := by
  have hs : Evident { m' with sequences := m.sequences } := h.congr he hr rfl hrc
  refine ⟨hs.events, hs.rates, fun key row hro => ?_, hs.proven, hs.decided⟩
  rcases hst key row hro with ⟨old, hold⟩ | hn
  · exact h.streams key old hold
  · exact hn

/-! ## Accepted commits -/

variable {name : EventName} {record : AcceptedEvent}

theorem get_withoutReceipt : (withoutReceipt m name).get key = some receipt ↔
      m.receipts.get key = some receipt ∧
        ∀ record, m.events.get name.key = some record → key ≠ name.claimKey record.claimId := by
  unfold withoutReceipt
  cases m.events.get name.key with
  | none => exact ⟨fun h => ⟨h, nofun⟩, And.left⟩
  | some record =>
    constructor
    · intro h
      obtain ⟨hne, hg⟩ := get_of_get_erase h
      refine ⟨hg, fun other ho => ?_⟩
      cases ho
      exact hne.symm
    · rintro ⟨hg, hne⟩
      rw [get_erase_of_ne _ (hne record rfl).symm]
      exact hg

theorem proven_accept (h : Evident m) (digest : Bytes) (hvalid : request.claim.name.Valid)
    (hn : name.Valid)
    (hg : (acceptedSource m request digest decisionAtMs).events.get name.key = some record) :
    ∃ receipt, (acceptedSource m request digest decisionAtMs).receipts.get
        (name.claimKey record.claimId) = some receipt ∧
      receipt.name = name ∧ receipt.claimId = record.claimId := by
  unfold acceptedSource at hg ⊢
  by_cases hs : request.claim.name = name
  · subst hs
    rw [get_insert_self] at hg
    cases hg
    exact ⟨receiptOf request, get_insert_self _ _ _, rfl, rfl⟩
  · have hk : request.claim.name.key ≠ name.key := fun heq =>
      hs (EventName.key_inj hvalid.1 hn.1 heq)
    have hc : ∀ id, request.claim.name.claimKey id ≠ name.claimKey record.claimId :=
      fun id heq => hs (EventName.claimKey_inj hvalid.1 hn.1 heq).1
    rw [get_insert_of_ne _ _ hk] at hg
    obtain ⟨receipt, hr, hp⟩ := h.proven name record hn hg
    refine ⟨receipt, ?_, hp⟩
    rw [get_insert_of_ne _ _ (hc _)]
    exact get_withoutReceipt.mpr ⟨hr, fun old _ => (hc old.claimId).symm⟩

theorem decided_accept (h : Evident m) (digest : Bytes) (hvalid : request.claim.name.Valid)
    (hg : (acceptedSource m request digest decisionAtMs).receipts.get key = some receipt) :
    ∃ name : EventName, ∃ record, name.Valid ∧
      (acceptedSource m request digest decisionAtMs).events.get name.key = some record ∧
        key = name.claimKey record.claimId := by
  unfold acceptedSource at hg ⊢
  rw [get_insert] at hg
  split at hg
  next hke =>
    exact ⟨request.claim.name, _, hvalid, get_insert_self _ _ _, hke.symm⟩
  next =>
    obtain ⟨hold, hk⟩ := get_withoutReceipt.mp hg
    obtain ⟨name, record, hn, hr, rfl⟩ := h.decided key receipt hold
    have ho : request.claim.name.key ≠ name.key := by
      intro heq
      obtain rfl := EventName.key_inj hvalid.1 hn.1 heq
      exact hk record hr rfl
    exact ⟨name, record, hn, by rw [get_insert_of_ne _ _ ho]; exact hr, rfl⟩

theorem advanced_get (m : SourceMemory) (request : SourceCommit) {row : SourceStreamState}
    (h : (advanced m request).get key = some row) : ∃ row, m.sequences.get key = some row := by
  unfold advanced at h
  split at h
  next => exact ⟨row, h⟩
  next stream _ =>
    dsimp only at h
    split at h
    next => exact ⟨row, h⟩
    next active ha =>
      rw [get_insert] at h
      split at h
      next heq => exact ⟨active, heq ▸ ha⟩
      next => exact ⟨row, h⟩

theorem size_advanced (m : SourceMemory) (request : SourceCommit) :
    (advanced m request).size = m.sequences.size := by
  unfold advanced
  split
  next => rfl
  next stream _ =>
    dsimp only
    split
    next => rfl
    next active ha =>
      rw [size_insert, OrderedMap.contains, ha]
      rfl

theorem rated_get {record : RateRecord} (h : (rated m request decisionAtMs).get key = some record) :
    m.rates.get key = some record ∨ key = request.claim.scope.key kindRate := by
  unfold rated at h
  split at h
  next => exact .inl h
  next =>
    rw [get_insert] at h
    split at h
    next heq => exact .inr heq.symm
    next => exact .inl h

theorem evident_accept (h : Evident m) (digest : Bytes)
    (hvalid : request.claim.name.Valid) :
    Evident (acceptedSource m request digest decisionAtMs) where
  events key record hg := by
    unfold acceptedSource at hg
    rw [get_insert] at hg
    split at hg
    next heq => exact ⟨request.claim.name, hvalid, heq.symm⟩
    next => exact h.events key record hg
  rates key record hg := by
    rcases rated_get hg with hold | rfl
    · exact h.rates key record hold
    · exact ⟨request.claim.scope, hvalid.1.1, hvalid.2.1, rfl⟩
  streams key row hg := by
    obtain ⟨old, hold⟩ := advanced_get m request hg
    exact h.streams key old hold
  proven _ _ hn hg := proven_accept h digest hvalid hn hg
  decided _ _ hg := decided_accept h digest hvalid hg

/-! ## Examined rows -/

theorem evident_erase (h : Evident m) (hg : m.events.get key = some record) :
    Evident { m with
      events := m.events.erase key
      receipts := m.receipts.erase (receiptKeyOf key record.claimId) } := by
  obtain ⟨name, hn, rfl⟩ := h.events key record hg
  refine ⟨fun key' record' h' => h.events key' record' (get_of_get_erase h').2, h.rates,
    h.streams, fun name' record' hn' h' => ?_, fun key' receipt' h' => ?_⟩
  · obtain ⟨hne, hold⟩ := get_of_get_erase h'
    obtain ⟨receipt, hr, hp⟩ := h.proven name' record' hn' hold
    refine ⟨receipt, ?_, hp⟩
    rw [get_erase_of_ne _ fun heq => ?_]
    · exact hr
    · exact hne (congrArg EventName.key (EventName.claimKey_inj hn.1 hn'.1 heq).1)
  · obtain ⟨hne, hold⟩ := get_of_get_erase h'
    obtain ⟨name', record', hn', hre', rfl⟩ := h.decided key' receipt' hold
    refine ⟨name', record', hn', ?_, rfl⟩
    rw [get_erase_of_ne _ fun heq => ?_]
    · exact hre'
    · obtain rfl := EventName.key_inj hn.1 hn'.1 heq
      cases hg.symm.trans hre'
      exact hne rfl

theorem evident_row (h : Evident m)
    (hc : SourceMemory.RowChange decisionAtMs m key m') : Evident m' := by
  cases hc with
  | none => exact h
  | event _ hg _ => exact evident_erase h hg
  | rate =>
    exact ⟨h.events, fun key' record' h' => h.rates key' record' (get_of_get_erase h').2,
      h.streams, h.proven, h.decided⟩
  | stream =>
    exact h.of_streams rfl rfl rfl fun key' row' h' =>
      .inl ⟨row', (get_of_get_erase h').2⟩

theorem bounded_row (h : Bounded options m)
    (hc : SourceMemory.RowChange decisionAtMs m key m') : Bounded options m' := by
  obtain ⟨hr, hs⟩ := h
  cases hc with
  | none => exact ⟨hr, hs⟩
  | event =>
    have hsi := m.events.size_erase_le key
    exact ⟨(Nat.add_le_add_right hsi _).trans hr, hs⟩
  | rate =>
    have hsi := m.rates.size_erase_le key
    exact ⟨(Nat.add_le_add_left hsi _).trans hr, hs⟩
  | stream => exact ⟨hr, (m.sequences.size_erase_le key).trans hs⟩

/-! ## Inspection -/

/-- The decision on the claim's event is retained and is the claim's own. -/
def SourceMemory.Retains (m : SourceMemory) (claim : SourceClaim) : Prop :=
  claim.name.Valid ∧ ∃ record, m.events.get claim.name.key = some record ∧
    record.claimId = claim.claimId

theorem Evident.receipt_iff (h : Evident m) (hna : claim.name.Named) :
    (∃ receipt, m.receipts.get (claim.name.claimKey claim.claimId) = some receipt) ↔
      m.Retains claim := by
  constructor
  · rintro ⟨receipt, hr⟩
    obtain ⟨name, record, hn, hre, hk⟩ := h.decided _ receipt hr
    obtain ⟨rfl, hc⟩ := EventName.claimKey_inj hna hn.1 hk
    exact ⟨hn, record, hre, hc.symm⟩
  · rintro ⟨hvalid, record, hre, hc⟩
    obtain ⟨receipt, hr, -⟩ := h.proven claim.name record hvalid hre
    exact ⟨receipt, hc ▸ hr⟩

theorem Evident.receipt_matches (h : Evident m) (hn : claim.name.Named)
    (hr : m.receipts.get (claim.name.claimKey claim.claimId) = some receipt) :
    receipt.name = claim.name ∧ receipt.claimId = claim.claimId := by
  obtain ⟨hvalid, record, hre, hc⟩ := (h.receipt_iff hn).mp ⟨receipt, hr⟩
  obtain ⟨proof, hp, hna, hid⟩ := h.proven claim.name record hvalid hre
  rw [hc, hr] at hp
  cases hp
  exact ⟨hna, hid.trans hc⟩

theorem Evident.inspect_eq (h : Evident m) (claim : SourceClaim) :
    m.inspect claim = (claimKey claim).map fun key =>
      (m.receipts.get key).elim .unproven .committed := by
  unfold inspect
  cases hk : claimKey claim with
  | error e => rfl
  | ok key =>
    obtain ⟨hn, rfl⟩ := claimKey_eq_ok.mp hk
    simp only [bind, Except.bind, Except.map]
    cases hr : m.receipts.get (claim.name.claimKey claim.claimId) with
    | none => rfl
    | some receipt =>
      have hm := receiptMatches_iff.mpr (h.receipt_matches hn hr)
      simp only [if_pos hm]
      rfl

theorem Evident.inspectEvent_eq (h : Evident m) (request : SourceEventDecisionInspection) :
    m.inspectEvent request =
      (eventKeyFor request.installationId request.projectionId request.scopeEpoch
        request.streamEpoch request.eventId).map fun key =>
          ((m.events.get key).bind fun record =>
            m.receipts.get (request.name.claimKey record.claimId)).elim .unproven .committed := by
  unfold inspectEvent
  cases hk : eventKeyFor request.installationId request.projectionId request.scopeEpoch
      request.streamEpoch request.eventId with
  | error e => rfl
  | ok key =>
    obtain ⟨hvalid, rfl⟩ : request.name.Valid ∧ key = request.name.key := eventKeyFor_eq_ok.mp hk
    simp only [bind, Except.bind, Except.map]
    cases hre : m.events.get request.name.key with
    | none => rfl
    | some record =>
      have hc : claimKey ⟨request.installationId, request.projectionId, request.scopeEpoch,
          request.streamEpoch, request.eventId, record.claimId⟩ =
          .ok (request.name.claimKey record.claimId) := claimKey_eq_ok.mpr ⟨hvalid.1, rfl⟩
      obtain ⟨receipt, hr, hn, hid⟩ := h.proven request.name record hvalid hre
      have hm : receiptMatches receipt ⟨request.installationId,
          request.projectionId, request.scopeEpoch, request.streamEpoch, request.eventId,
          record.claimId⟩ = true := receiptMatches_iff.mpr ⟨hn, hid⟩
      simp only [hc, hr, if_pos hm, Option.bind_some]
      rfl

/-! ## Steps and histories -/

theorem Change.evident (h : Change host options m log m') (he : Evident m) : Evident m' := by
  cases h with
  | none => exact he
  | accept digest h => exact evident_accept he digest h.valid
  | openStream h =>
    refine he.of_streams rfl rfl rfl fun key row hr => ?_
    unfold opened at hr
    rw [get_insert] at hr
    split at hr
    next heq => exact .inr ⟨_, h.call.named, h.call.epoch_ne_zero, heq.symm⟩
    next => exact .inl ⟨row, hr⟩
  | retireStream =>
    exact he.of_streams rfl rfl rfl fun key row hr =>
      .inl ⟨row, (get_of_get_erase hr).2⟩
  | install | uninstall => exact he.congr rfl rfl rfl rfl
  | maintain decisionAtMs limit =>
    exact maintain_invariant he (fun _ _ _ => he.congr rfl rfl rfl rfl)
      (fun _ _ _ _ _ _ _ _ _ hm₁ hc => evident_row hm₁ hc)
      (fun _ _ hm₁ => hm₁.congr rfl rfl rfl rfl)

theorem Change.bounded (h : Change host options m log m') (hb : Bounded options m) :
    Bounded options m' := by
  obtain ⟨hr, hs⟩ := hb
  cases h with
  | none => exact ⟨hr, hs⟩
  | @accept request decisionAtMs digest h =>
    refine ⟨(h.retention digest).trans (max_le hr le_rfl), ?_⟩
    exact (size_advanced m request).trans_le hs
  | openStream h =>
    refine ⟨hr, ?_⟩
    unfold opened
    rw [size_insert]
    split
    next => exact hs
    next => exact h.room
  | retireStream => exact ⟨hr, (m.sequences.size_erase_le _).trans hs⟩
  | install | uninstall => exact ⟨hr, hs⟩
  | maintain decisionAtMs limit =>
    exact maintain_invariant ⟨hr, hs⟩
      (fun _ _ _ => ⟨hr, hs⟩)
      (fun _ _ _ _ _ _ _ _ _ hm₁ hc => bounded_row hm₁ hc) (fun _ _ hm₁ => ⟨hm₁.1, hm₁.2⟩)

variable {st : MemoryState}

theorem evident_run (hs : Evident st.journal.source) (calls : List Call) :
    Evident (run host options st calls).journal.source :=
  Machine.run_invariant (I := fun st : MemoryState => Evident st.journal.source)
    (fun st call h => (step_change host options st call).evident h) hs calls

theorem bounded_run (hs : Bounded options st.journal.source) (calls : List Call) :
    Bounded options (run host options st calls).journal.source :=
  Machine.run_invariant (I := fun st : MemoryState => Bounded options st.journal.source)
    (fun st call h => (step_change host options st call).bounded h) hs calls

end Xolotl.Source
