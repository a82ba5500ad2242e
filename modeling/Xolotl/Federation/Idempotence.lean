import Xolotl.Federation.Publication

/-! Retries: an identity that has created its record never creates another, and what a retry is
answered. -/

namespace Xolotl.Federation

open Word Fallible MemoryFederationStore

variable {sha384 : Hash} {localNode : FederationNodeId} {s : State}

/-! ## Appends that create nothing -/

variable {clock : Clock} {request : PublishRequest} {row : PublishedStream} {ref : StreamRef}
  {item : Publication} {limit : Nat}

theorem appendPublished_eq {store : MemoryFederationStore}
    (ho : request.stream.publisher = store.localNode) (hl : (store.lock clock s).1 = .ok ()) :
    appendPublished sha384 store clock s request =
      match appendLocked sha384 request (store.lock clock s).2 with
      | .error e => (.error e, (store.lock clock s).2)
      | .ok (record, s') => (.ok record, s') := by
  have hc : ownStream store request.stream = .ok () := require_ok.mpr ho
  rw [appendPublished, hc, locked]
  rcases hb : store.lock clock s with ⟨answer, s₁⟩
  rw [hb] at hl
  cases hl
  dsimp only
  cases appendLocked sha384 request s₁ <;> rfl

theorem appendLocked_closed
    (hro : s.streams.get request.stream = some row) (hc : request.retryEpoch ≠ row.retryEpoch) :
    appendLocked sha384 request s = .error .conflict := by
  have hr : ¬(request.retryEpoch ≠ 0 ∧ request.retryEpoch = row.retryEpoch) :=
    fun ho => hc ho.2
  rw [appendLocked, hro]
  simp only [orError, bind, Except.bind, require, if_neg hr]

theorem appendLocked_retry {position : Position}
    (hr : s.streams.get request.stream = some row) (ho : request.retryEpoch = row.retryEpoch)
    (hep : 1 ≤ row.retryEpoch)
    (hk : row.requests.get (request.retryEpoch, request.publishId) = some position) :
    appendLocked sha384 request s = (row.retry request position).map fun record => (record, s) := by
  have ha : request.retryEpoch ≠ 0 ∧ request.retryEpoch = row.retryEpoch := ⟨by omega, ho⟩
  rw [appendLocked, hr]
  simp only [orError, bind, Except.bind, require, if_pos ha, hk]
  cases row.retry request position <;> rfl

theorem Ledger.retry_eq {items : List Publication} (h : Ledger ref items row) (hi : item ∈ items)
    (request : PublishRequest) :
    row.retry request item.position =
      if item.sequence < row.minimumAvailable then .error .indeterminate
      else if request.matchesRecord item.record then .ok item.record else .error .conflict := by
  have hs : item.position.sequence = item.sequence := rfl
  rw [PublishedStream.retry, hs]
  by_cases hr : item.sequence < row.minimumAvailable
  · rw [if_pos hr, if_pos hr]
  · have hfs := h.first
    have hre : item.record ∈ row.records := by
      refine (h.retained.mem_kept_iff (List.mem_map_of_mem hi)).mpr ?_
      have hn : item.record.sequence = item.sequence := rfl
      omega
    have hf := (h.retained.kept_numbered.mem_iff.mp hre).2
    have hid : item.record.sequence - (0 + (row.minimumAvailable - 1) + 1) =
        item.sequence - row.minimumAvailable := by
      have hn : item.record.sequence = item.sequence := rfl
      omega
    rw [hid] at hf
    rw [hf]
    rfl

namespace Published

variable {decision : Option FederationDecision} {log : List Event}
  (h : Published localNode limit log s)
include h

theorem retry (hr : s.streams.get ref = some row) (hi : item ∈ publications ref log)
    (hs : request.stream = ref) (hid : (request.retryEpoch, request.publishId) = item.identity)
    (hlo : (lock ⟨localNode, decision⟩ clock s).1 = .ok ()) :
    appendPublished sha384 ⟨localNode, decision⟩ clock s request =
      (if request.retryEpoch ≠ row.retryEpoch then .error .conflict
        else if item.sequence < row.minimumAvailable then .error .indeterminate
        else if request.matchesRecord item.record then .ok item.record else .error .conflict,
      (lock ⟨localNode, decision⟩ clock s).2) := by
  subst hs
  obtain ⟨t, ht⟩ := lock_state ⟨localNode, decision⟩ clock s
  have hl := h.rows _ row hr
  have hr' : (lock ⟨localNode, decision⟩ clock s).2.streams.get request.stream
      = some row := by
    rw [ht]
    exact hr
  rw [appendPublished_eq (h.own _ row hr) hlo]
  by_cases ho : request.retryEpoch = row.retryEpoch
  · have hep : item.request.retryEpoch = row.retryEpoch := (congrArg Prod.fst hid).symm.trans ho
    have hk := hl.known item hi hep
    rw [← hid] at hk
    rw [appendLocked_retry hr' ho hl.opened hk, hl.retry_eq hi request, if_neg (not_not.mpr ho)]
    split_ifs <;> rfl
  · rw [appendLocked_closed hr' ho, if_pos ho]

theorem closed (hr : s.streams.get request.stream = some row)
    (hc : request.retryEpoch < row.retryEpoch) :
    ∃ e, appendPublished sha384 ⟨localNode, decision⟩ clock s request =
      (.error e, (lock ⟨localNode, decision⟩ clock s).2) := by
  obtain ⟨t, ht⟩ := lock_state ⟨localNode, decision⟩ clock s
  cases hl : (lock ⟨localNode, decision⟩ clock s).1 with
  | error e =>
    have hch : ownStream ⟨localNode, decision⟩ request.stream = .ok () :=
      require_ok.mpr (h.own _ row hr)
    refine ⟨e, ?_⟩
    rw [appendPublished, hch, locked]
    rcases hb : lock ⟨localNode, decision⟩ clock s with ⟨answer, s₁⟩
    rw [hb] at hl
    cases hl
    rfl
  | ok u =>
    refine ⟨.conflict, ?_⟩
    rw [appendPublished_eq (h.own _ row hr) hl, appendLocked_closed _ (Nat.ne_of_lt hc)]
    rw [ht]
    exact hr

/-! ## Whole histories -/

theorem ledger (ref : StreamRef) : ∃ row, Ledger ref (publications ref log) row := by
  cases hr : s.streams.get ref with
  | none =>
    rw [h.absent ref hr]
    exact ⟨_, .declare ⟨ref, ⟨"x", by decide⟩⟩⟩
  | some row => exact ⟨row, h.rows ref row hr⟩

theorem numbered (ref : StreamRef) : (publications ref log).map Publication.sequence =
    List.range' 1 (publications ref log).length := by
  obtain ⟨row, hl⟩ := h.ledger ref
  have hn := hl.retained.numbered
  rwa [Consecutive, List.map_map, List.length_map] at hn

end Published

/-- Publication is ordered and idempotent: the items of a stream are everything it was ever given,
the store keeps an end of them, and a retry is answered from the item it repeats. -/
theorem publication_is_ordered_and_idempotent (sha384 : Hash) (localNode : FederationNodeId)
    (limit : Nat) (calls : List Call) :
    let s := run sha384 localNode (State.new limit) calls
    let items (ref : StreamRef) := publications ref (log sha384 localNode (State.new limit) calls)
    (∀ ref, (items ref).map Publication.sequence = List.range' 1 (items ref).length) ∧
    (∀ ref more, items ref <+:
      publications ref (log sha384 localNode (State.new limit) (calls ++ more))) ∧
    (∀ ref row, s.streams.get ref = some row →
      row.records = ((items ref).map Publication.record).drop (row.minimumAvailable - 1) ∧
      row.head = (items ref).getLast?.map Publication.position) ∧
    (∀ ref, ((items ref).map Publication.identity).Nodup) ∧
    (∀ ref, ∀ item ∈ items ref,
      item.request.stream = ref ∧ item.request.matchesRecord item.record = true) ∧
    (∀ ref row item request decision clock, s.streams.get ref = some row → item ∈ items ref →
      request.stream = ref → (request.retryEpoch, request.publishId) = item.identity →
      (lock ⟨localNode, decision⟩ clock s).1 = .ok () →
      appendPublished sha384 ⟨localNode, decision⟩ clock s request =
        (if request.retryEpoch ≠ row.retryEpoch then .error .conflict
          else if item.sequence < row.minimumAvailable then .error .indeterminate
          else if request.matchesRecord item.record then .ok item.record else .error .conflict,
        (lock ⟨localNode, decision⟩ clock s).2)) ∧
    (∀ row request decision clock, s.streams.get request.stream = some row →
      request.retryEpoch < row.retryEpoch →
      (∃ e, (appendPublished sha384 ⟨localNode, decision⟩ clock s request).1 = .error e) ∧
      (appendPublished sha384 ⟨localNode, decision⟩ clock s request).2.streams = s.streams ∧
      events sha384 localNode s ⟨decision, clock, .appendPublished request⟩ = []) ∧
    s.publishIdCount = s.streams.total identityCount ∧ s.publishIdCount ≤ limit := by
  intro s items
  have hpublished : Published localNode limit _ s := published_run limit calls
  refine ⟨hpublished.numbered, ?_, ?_, ?_, ?_, ?_, ?_, hpublished.counted.exact,
    hpublished.counted.limited⟩
  · intro ref more
    rw [log, Machine.collect_append, publications_append]
    exact List.prefix_append _ _
  · intro ref row hrow
    have hledger := hpublished.rows ref row hrow
    exact ⟨hledger.retained.suffix, hledger.head⟩
  · intro ref
    obtain ⟨row, hledger⟩ := hpublished.ledger ref
    exact hledger.unique
  · intro ref item hitem
    obtain ⟨row, hledger⟩ := hpublished.ledger ref
    exact ⟨hledger.owned item hitem, hledger.matched item hitem⟩
  · intro ref row item request decision clock hrow hitem hstream hidentity hlock
    exact hpublished.retry hrow hitem hstream hidentity hlock
  · intro row request decision clock hrow hclosed
    have hrefused : ∃ e, appendPublished sha384 ⟨localNode, decision⟩ clock s request =
        (.error e, (lock ⟨localNode, decision⟩ clock s).2) :=
      hpublished.closed hrow hclosed
    obtain ⟨e, happend⟩ := hrefused
    refine ⟨⟨e, by rw [happend]⟩, ?_, ?_⟩
    · obtain ⟨t, ht⟩ := lock_state ⟨localNode, decision⟩ clock s
      rw [happend, ht]
      rfl
    · simp only [events, step, answering, happend, Except.map]

namespace Sample

def posting : List Call :=
  [own (.declareStream ⟨stream, exportName⟩), own (.appendPublished (publish 1 1 7)),
    own (.appendPublished (publish 1 2 8))]

def posted : State := run checksum here (State.new 4) posting

def postedRow : PublishedStream := (posted.streams.get stream).getD (.declare ⟨stream, exportName⟩)

def postedItems : List Publication :=
  publications stream (log checksum here (State.new 4) posting)

def closed : State :=
  run checksum here (State.new 4) (posting ++ [own (.closePublicationEpoch stream 1)])

end Sample

open Sample in
theorem publication_is_ordered_and_idempotent_posted :
    postedItems.map Publication.request = [publish 1 1 7, publish 1 2 8] ∧ ∀ item ∈ postedItems,
      appendPublished checksum ⟨here, none⟩ (.ok 0) posted item.request =
        (.ok item.record, posted) := by
  refine ⟨by decide +kernel, fun item hitem => ?_⟩
  obtain ⟨-, -, -, -, hmatched, hretry, -⟩ :=
    publication_is_ordered_and_idempotent checksum here 4 posting
  have hrow : posted.streams.get stream = some postedRow := rfl
  have hopen : ∀ item ∈ postedItems, item.request.retryEpoch = postedRow.retryEpoch ∧
      ¬item.sequence < postedRow.minimumAvailable := by decide +kernel
  obtain ⟨hstream, hmatches⟩ := hmatched stream item hitem
  refine (hretry stream postedRow item item.request none (.ok 0) hrow hitem hstream rfl
    rfl).trans ?_
  rw [if_neg (not_not.mpr (hopen item hitem).1), if_neg (hopen item hitem).2, if_pos hmatches]
  rfl

open Sample in
/-- A retry of the same content is refused once its epoch is closed, though its record is kept. -/
theorem retry_after_close_is_refused : (closed.streams.get stream).map PublishedStream.records =
      some (postedItems.map Publication.record) ∧
    ∀ item ∈ postedItems,
      (appendPublished checksum ⟨here, none⟩ (.ok 0) closed item.request).1 = .error .conflict := by
  decide +kernel

end Xolotl.Federation
