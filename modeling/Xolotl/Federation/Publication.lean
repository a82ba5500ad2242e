import Xolotl.Lib.Retention
import Xolotl.Federation.Change

/-! Publication over whole histories: the ledger of every record a stream ever got, of which the
store keeps the end. -/

namespace Xolotl.Federation

open Word Fallible List Table

theorem Record.new_parts {sha384 : Hash} {parts : RecordParts} {record : Record}
    (h : Record.new sha384 parts = .ok record) : record.parts = parts := by
  unfold Record.new at h
  split at h
  next =>
    obtain ⟨_, -, h⟩ := bind_ok.mp h
    cases h
    rfl
  next => cases h

/-! ## The ledger of a stream -/

structure Publication where
  request : PublishRequest
  record : Record
  deriving DecidableEq

namespace Publication

def identity (item : Publication) : Nat × RequestId :=
  (item.request.retryEpoch, item.request.publishId)

def sequence (item : Publication) : Nat := item.record.sequence

def position (item : Publication) : Position := item.record.position

end Publication

def Event.publication (ref : StreamRef) : Event → Option Publication
  | .published request record => if request.stream = ref then some ⟨request, record⟩ else none
  | .accepted _ _ => none

def publications (ref : StreamRef) (log : List Event) : List Publication :=
  log.filterMap (Event.publication ref)

/-- What the store holds of a stream, against everything that was published to it. -/
structure Ledger (ref : StreamRef) (items : List Publication) (row : PublishedStream) : Prop where
  opened : 1 ≤ row.retryEpoch
  first : 1 ≤ row.minimumAvailable
  retained : Retained Record.sequence 0 (items.map Publication.record) (row.minimumAvailable - 1)
    row.records
  head : row.head = items.getLast?.map Publication.position
  anchored : row.retiredThrough =
    (anchor (items.map Publication.record) (row.minimumAvailable - 1)).map Record.position
  owned : ∀ item ∈ items, item.request.stream = ref
  matched : ∀ item ∈ items, item.request.matchesRecord item.record = true
  epochs : ∀ item ∈ items, item.request.retryEpoch ≤ row.retryEpoch
  known : ∀ item ∈ items, item.request.retryEpoch = row.retryEpoch →
    row.requests.get item.identity = some item.position
  unique : (items.map Publication.identity).Nodup

namespace Ledger

variable {ref : StreamRef} {items : List Publication} {row : PublishedStream}

theorem declare (spec : StreamSpec) : Ledger ref [] (.declare spec) where
  opened := Nat.le_refl 1
  first := Nat.le_refl 1
  retained := .empty Record.sequence 0
  head := rfl
  anchored := rfl
  owned := nofun
  matched := nofun
  epochs := nofun
  known := nofun
  unique := nodup_nil

variable (h : Ledger ref items row)
include h

theorem headSequence : sequenceOrZero row.head = items.length := by
  cases hlast : items.getLast? with
  | none =>
    rw [h.head, List.getLast?_eq_none_iff.mp hlast]
    rfl
  | some item =>
    have hr : (items.map Publication.record).getLast? = some item.record := by
      rw [List.getLast?_map, hlast]
      rfl
    have hn := h.retained.number_getLast hr
    rw [length_map, Nat.zero_add] at hn
    rw [h.head, hlast]
    exact hn

theorem nextSequence {sequence : Nat}
    (hn : row.nextSequence = some sequence) : sequence = items.length + 1 := by
  have hh := h.headSequence
  unfold PublishedStream.nextSequence at hn
  cases hr : row.head with
  | none =>
    rw [hr] at hn hh
    cases hn
    rw [← hh]
    rfl
  | some head =>
    rw [hr] at hn hh
    obtain ⟨-, rfl⟩ := checkedSucc_eq_some.mp hn
    rw [← hh]
    rfl

theorem records_eq : row.records.map Record.sequence =
      List.range' row.minimumAvailable (sequenceOrZero row.head + 1 - row.minimumAvailable) := by
  have hf := h.first
  have hl := h.retained.length_kept
  have hn := h.retained.kept_numbered
  rw [length_map] at hl
  have hs : 0 + (row.minimumAvailable - 1) + 1 = row.minimumAvailable := by omega
  rw [hs] at hn
  have hc : row.records.length = sequenceOrZero row.head + 1 - row.minimumAvailable := by
    rw [h.headSequence]
    omega
  rw [← hc]
  exact hn

theorem push {sha384 : Hash} {request : PublishRequest} {record : Record} {sequence : Nat}
    (hs : request.stream = ref) (hep : request.retryEpoch = row.retryEpoch)
    (hf : row.requests.get (request.retryEpoch, request.publishId) = none)
    (hn : row.nextSequence = some sequence)
    (hr : Record.new sha384 (request.intoParts sequence) = .ok record) :
    Ledger ref (items ++ [⟨request, record⟩]) (row.push request record) := by
  have hse : record.sequence = items.length + 1 := by
    rw [Record.sequence, Record.new_parts hr, ← h.nextSequence hn]
    rfl
  -- an item of the open epoch is still known, so its identity differs from the fresh one
  have hd : ∀ item ∈ items, item.identity ≠ (request.retryEpoch, request.publishId) := by
    intro item hi heq
    have ho : item.request.retryEpoch = row.retryEpoch := (congrArg Prod.fst heq).trans hep
    have hk := h.known item hi ho
    rw [heq, hf] at hk
    cases hk
  have hm : ∀ {P : Publication → Prop}, (∀ item ∈ items, P item) → P ⟨request, record⟩ →
      ∀ item ∈ items ++ [⟨request, record⟩], P item := by
    intro P hit hlast item hi
    rcases mem_append.mp hi with hi | hi
    · exact hit item hi
    · rw [mem_singleton.mp hi]
      exact hlast
  constructor
  · exact h.opened
  · exact h.first
  · rw [map_append]
    exact h.retained.push (by rw [length_map, hse, Nat.zero_add])
  · rw [List.getLast?_append]
    rfl
  · rw [map_append, map_singleton, show (row.push request record).minimumAvailable =
      row.minimumAvailable from rfl, h.retained.anchor_push]
    exact h.anchored
  · exact hm h.owned hs
  · refine hm h.matched ?_
    simp [PublishRequest.matchesRecord, Record.stream, Record.payload, Record.new_parts hr,
      PublishRequest.intoParts]
  · exact hm h.epochs (Nat.le_of_eq hep)
  · refine hm (fun item hi ho => ?_) fun _ => get_set_self ..
    exact (get_set_of_ne _ _ (hd item hi)).trans (h.known item hi ho)
  · rw [map_append, nodup_append]
    refine ⟨h.unique, nodup_singleton _, ?_⟩
    intro identity hid other hot
    obtain ⟨item, hi, rfl⟩ := mem_map.mp hid
    rw [map_singleton, mem_singleton] at hot
    rw [hot]
    exact hd item hi

theorem closeEpoch : Ledger ref items { row with retryEpoch := row.retryEpoch + 1 } := by
  refine ⟨Nat.le_add_left 1 _, h.first, h.retained, h.head, h.anchored, h.owned, h.matched, ?_, ?_,
    h.unique⟩
  · exact fun item hi => Nat.le_succ_of_le (h.epochs item hi)
  · intro item hi ho
    have hle := h.epochs item hi
    have hn : item.request.retryEpoch = row.retryEpoch + 1 := ho
    omega

end Ledger

/-! ## Released identities -/

def Released (row row' : PublishedStream) : Prop :=
  ∃ requests, row' = { row with requests := requests } ∧
    ∀ key, requests.get key = row.requests.get key ∨
      requests.get key = none ∧ key.1 < row.retryEpoch

variable {row' : PublishedStream} {streams : Table StreamRef PublishedStream}
  {receipts : List PublicationReceipt} {limit : Nat} {row : PublishedStream} {ref : StreamRef}
  {New : PublishedStream → Prop} {expiryAt : Option Nat}

theorem Released.trans {row'' : PublishedStream} (h : Released row row')
    (h' : Released row' row'') : Released row row'' := by
  obtain ⟨requests, rfl, hr⟩ := h
  obtain ⟨requests', rfl, hr'⟩ := h'
  refine ⟨requests', rfl, fun key => ?_⟩
  rcases hr' key with hk | hg
  · rw [hk]
    exact hr key
  · exact .inr hg

theorem Released.remove (row : PublishedStream) {key : Nat × RequestId}
    (h : key.1 < row.retryEpoch) :
    Released row { row with requests := row.requests.remove key } := by
  refine ⟨_, rfl, fun other => ?_⟩
  rw [get_remove]
  split
  next hk => exact .inr ⟨rfl, hk ▸ h⟩
  next => exact .inl rfl

theorem Ledger.release {items : List Publication}
    (h : Ledger ref items row) (hre : Released row row') : Ledger ref items row' := by
  obtain ⟨requests, rfl, hr⟩ := hre
  refine ⟨h.opened, h.first, h.retained, h.head, h.anchored, h.owned, h.matched, h.epochs, ?_,
    h.unique⟩
  intro item hi ho
  rcases hr item.identity with hk | ⟨-, hc⟩
  · exact hk.trans (h.known item hi ho)
  · exact absurd ho (Nat.ne_of_lt hc)

/-! ## Retired history -/

theorem PublishedStream.locate_ok {position : Position} (h : row.locate position = .ok ()) :
    row.retiredThrough = some position ∨ row.minimumAvailable ≤ position.sequence ∧
      ∃ record, row.records[position.sequence - row.minimumAvailable]? = some record ∧
        record.digest = position.digest := by
  unfold locate at h
  split at h
  next ha => exact .inl ha
  next =>
    split at h
    · cases h
    · split at h
      · cases h
      next hle =>
        simp only [bind_ok, orError_ok, require_ok] at h
        obtain ⟨record, hr, hd⟩ := h
        exact .inr ⟨Nat.le_of_not_lt hle, record, hr, hd⟩

namespace Ledger

variable {ref : StreamRef} {items : List Publication} {row : PublishedStream} {position : Position}

theorem anchor_sequence (h : Ledger ref items row) (ha : row.retiredThrough = some position) :
    position.sequence + 1 = row.minimumAvailable := by
  rw [h.anchored, Option.map_eq_some_iff] at ha
  obtain ⟨record, hr, rfl⟩ := ha
  obtain ⟨hd, -, hn⟩ := h.retained.number_anchor hr
  have hpos : record.position.sequence = record.sequence := rfl
  omega

theorem located (h : Ledger ref items row) (hl : row.locate position = .ok ())
    (hf : row.minimumAvailable ≤ position.sequence) :
    ∃ record, row.records[position.sequence - row.minimumAvailable]? = some record ∧
      record.position = position := by
  rcases row.locate_ok hl with ha | ⟨-, record, hr, hd⟩
  · have hs := h.anchor_sequence ha
    omega
  · refine ⟨record, hr, Position.ext ?_ hd⟩
    have hn := h.retained.kept_numbered.getElem? hr
    have hp := h.first
    have hpos : record.position.sequence = record.sequence := rfl
    omega

theorem retire {s : State} {expiryAt : Option Nat} {through : Position} {plan : RetirePlan}
    (h : Ledger ref items row) (hp : Planned s ref expiryAt row through plan) :
    Ledger ref items (row.retire plan) := by
  obtain ⟨record, hre, hpos⟩ := h.located hp.located hp.first
  have hpo := h.first
  have hf := hp.first
  have hc : plan.count ≤ row.records.length := by
    have hlt := (List.getElem?_eq_some_iff.mp hre).1
    have hpl := hp.count
    omega
  have hd : (row.minimumAvailable - 1) + plan.count = through.sequence := by
    have hpl := hp.count
    omega
  have hn : (row.retire plan).minimumAvailable - 1 = through.sequence := by
    rw [PublishedStream.retire, hp.next]
    rfl
  have hr := h.retained.retire hc
  rw [hd] at hr
  refine ⟨h.opened, ?_, ?_, h.head, ?_, h.owned, h.matched, h.epochs, h.known, h.unique⟩
  · rw [PublishedStream.retire, hp.next]
    exact Nat.succ_pos _
  · rw [hn]
    exact hr
  · -- the anchor is the record the plan goes through
    have ht : (row.retire plan).retiredThrough = some through := hp.through
    obtain ⟨last, hlast, ha, hnu⟩ := hr.anchor_eq through.positive
    have hm := h.retained.mem_of_kept (mem_of_getElem? hre)
    have hs : record.sequence = last.sequence := by
      rw [hnu, Nat.zero_add, ← hpos]
      rfl
    rw [hn, ht, ha, ← h.retained.numbered.unique hm hlast hs, ← hpos]
    rfl

end Ledger

/-! ## One call -/

def identityCount (row : PublishedStream) : Nat := row.requests.size

theorem checkReceipts_ok {store : MemoryFederationStore}
    (h : checkReceipts store streams receipts = .ok ()) :
    ∀ receipt ∈ receipts, ∃ row, streams.get receipt.stream = some row ∧
      receipt.retryEpoch < row.retryEpoch := by
  induction receipts with
  | nil => exact nofun
  | cons receipt receipts ih =>
    simp only [checkReceipts, bind_ok, orError_ok, require_ok] at h
    obtain ⟨-, -, row, hro, -, ⟨-, hc, -⟩, hr⟩ := h
    exact forall_mem_cons.mpr ⟨⟨row, hro, hc⟩, ih hr⟩

theorem releaseIdentities_spec (removed : Nat)
    (h : ∀ receipt ∈ receipts, ∃ row, streams.get receipt.stream = some row ∧
      receipt.retryEpoch < row.retryEpoch) :
    ∃ count streams', releaseIdentities receipts streams removed =
      (.ok (removed + count), streams') ∧
      streams'.total identityCount + count = streams.total identityCount ∧
      ∀ ref, Table.Turns (fun _ => False) Released (streams.get ref) (streams'.get ref) := by
  induction receipts generalizing streams removed with
  | nil => exact ⟨0, streams, rfl, rfl, fun ref =>
    .same (fun row => ⟨row.requests, rfl, fun _ => .inl rfl⟩) _⟩
  | cons receipt receipts ih =>
    obtain ⟨⟨row, hro, hc⟩, hr⟩ := forall_mem_cons.mp h
    let key := (receipt.retryEpoch, receipt.publishId)
    let row₁ : PublishedStream := { row with requests := row.requests.remove key }
    -- the epochs stay, so the other receipts are still checked
    have hr₁ : ∀ other ∈ receipts, ∃ found,
        (streams.set receipt.stream row₁).get other.stream = some found ∧
          other.retryEpoch < found.retryEpoch := by
      intro other ho
      obtain ⟨found, hf, hb⟩ := hr other ho
      by_cases hs : other.stream = receipt.stream
      · rw [hs, hro] at hf
        cases hf
        rw [hs]
        exact ⟨row₁, get_set_self .., hb⟩
      · exact ⟨found, (get_set_of_ne _ _ hs).trans hf, hb⟩
    obtain ⟨count, streams', hre, hto, ht⟩ :=
      ih (if row.requests.contains key then removed + 1 else removed) hr₁
    refine ⟨(if row.requests.contains key then 1 else 0) + count, streams', ?_, ?_, fun ref => ?_⟩
    · rw [releaseIdentities, hro]
      refine hre.trans ?_
      split <;> simp [Nat.add_assoc]
    · have hse := Table.total_set identityCount row₁ hro
      have hsi : row₁.requests.size + (if row.requests.contains key then 1 else 0) =
          row.requests.size := size_remove
      simp only [identityCount] at hse
      omega
    · by_cases hs : ref = receipt.stream
      · subst hs
        obtain ⟨row', hro', hm⟩ := (ht _).of_some (get_set_self ..)
        rw [hro, hro']
        exact .moves ((Released.remove row hc).trans hm)
      · have htu := ht ref
        rwa [get_set_of_ne _ _ hs] at htu

/-- Maintenance of a stream at a decision time, which commits the expiries of that time. -/
structure Call.Maintains (localNode : FederationNodeId) (call : Call) (s s' : State)
    (ref : StreamRef) (now : Nat) : Prop where
  request : ∃ nowMs maxRecords, call.request = .retireReplicaSafeHistory ref nowMs maxRecords ∧
    now = MemoryFederationStore.decisionTime ⟨localNode, call.decision⟩ s' nowMs
  expires : Expires s ref now s'.replicaMembers

variable (sha384 : Hash) (localNode : FederationNodeId) (s s' : State) (call : Call)
  (ref : StreamRef) (row : PublishedStream) in
inductive PublishedStream.Moves : List Publication → PublishedStream → Prop
  | same : Moves [] row
  | push {request : PublishRequest} {record : Record} (hstream : request.stream = ref)
      (h : Appends sha384 s request row record) :
      Moves [⟨request, record⟩] (row.push request record)
  | closeEpoch : Moves [] { row with retryEpoch := row.retryEpoch + 1 }
  | release {row' : PublishedStream} (h : Released row row') : Moves [] row'
  | retire {expiryAt : Option Nat} {through : Position} {plan : RetirePlan}
      (hcall : ∀ now ∈ expiryAt, call.Maintains localNode s s' ref now)
      (h : Planned s ref expiryAt row through plan) :
      Moves [] (row.retire plan)

variable {sha384 : Hash} {localNode : FederationNodeId} {s s' : State} {call : Call}
  {events : List Event}

theorem turns_set (hr : s.streams.get ref = some row)
    (hm : row.Moves sha384 localNode s s' call ref [] row') (other : StreamRef) :
    Table.Turns New (fun row row' => row.Moves sha384 localNode s s' call other [] row')
      (s.streams.get other) ((s.streams.set ref row').get other) := by
  refine .set (fun _ => .same) ?_
  rintro rfl
  rw [hr]
  exact .moves hm

theorem Retires.turns (h : Retires s ref expiryAt streams)
    (hc : ∀ now ∈ expiryAt, call.Maintains localNode s s' ref now) (other : StreamRef) :
    Table.Turns New (fun row row' => row.Moves sha384 localNode s s' call other [] row')
      (s.streams.get other) (streams.get other) := by
  cases h with
  | nothing => exact .same (fun _ => .same) _
  | planned h => exact turns_set h.row (.retire hc h) other

theorem releaseLocked_state (receipts : List PublicationReceipt) (s : State) :
    ∃ streams count,
      (releaseLocked receipts s).2 = { s with streams := streams, publishIdCount := count } := by
  unfold releaseLocked
  split
  · exact ⟨_, s.publishIdCount, rfl⟩
  · split
    · exact ⟨_, s.publishIdCount, rfl⟩
    · exact ⟨_, _, rfl⟩

theorem streams_releaseLocked (receipts : List PublicationReceipt) (s : State) :
    (releaseLocked receipts s).2.streams = (releaseIdentities receipts s.streams 0).2 := by
  unfold releaseLocked
  split
  next h => rw [h]
  next h =>
    rw [h]
    split <;> rfl

theorem publications_accepted (ref : StreamRef) (subscription : SubscriptionRef)
    (records : List Record) : publications ref (records.map (.accepted subscription)) = [] := by
  rw [publications, filterMap_map, filterMap_eq_nil_iff]
  exact fun _ _ => rfl

theorem publications_single (ref : StreamRef) (request : PublishRequest) (record : Record) :
    publications ref [.published request record] =
      if request.stream = ref then [⟨request, record⟩] else [] := by
  by_cases h : request.stream = ref <;> simp [publications, Event.publication, h]

theorem Change.stream (h : Change sha384 localNode s call events s') (ref : StreamRef) : Table.Turns
      (fun row => publications ref events = [] ∧ ∃ spec, spec.stream = ref ∧
        ref.publisher = localNode ∧ row = .declare spec)
      (fun row row' => row.Moves sha384 localNode s s' call ref (publications ref events) row')
      (s.streams.get ref) (s'.streams.get ref) := by
  cases h with
  | declare ho hne =>
    rename_i spec
    refine .set (fun _ => .same) ?_
    rintro rfl
    rw [hne]
    exact .appears ⟨rfl, spec, rfl, ho, rfl⟩
  | append ha =>
    rename_i request stream record
    by_cases hs : request.stream = ref
    · subst hs
      rw [ha.row, State.appended, get_set_self, publications_single, if_pos rfl]
      exact .moves (.push rfl ha)
    · rw [State.appended, get_set_of_ne _ _ (Ne.symm hs), publications_single, if_neg hs]
      exact .same (fun _ => .same) _
  | closeEpoch hro => exact turns_set hro .closeEpoch ref
  | release hch =>
    obtain ⟨count, streams', hre, -, ht⟩ := releaseIdentities_spec 0 (checkReceipts_ok hch)
    rw [streams_releaseLocked, hre]
    exact (ht ref).mono (fun _ hf => hf.elim) fun _ _ => .release
  | retire hr => exact hr.turns (by rintro _ ⟨⟩) ref
  | maintain hc hn hr he =>
    refine hr.turns (fun now hm => ?_) ref
    cases hm
    exact ⟨⟨_, _, hc, hn⟩, he⟩
  | moved =>
    rw [publications_accepted]
    exact .same (fun _ => .same) _
  | _ => exact .same (fun _ => .same) _

theorem Change.publications_absent (h : Change sha384 localNode s call events s')
    (hab : s.streams.get ref = .none) : publications ref events = [] := by
  cases h with
  | append ha =>
    rw [publications_single, if_neg]
    rintro rfl
    rw [ha.row] at hab
    cases hab
  | moved => exact publications_accepted ..
  | _ => rfl

/-! ## The count of identities -/

theorem total_set_same
    (hr : s.streams.get ref = some row) (hc : identityCount row' = identityCount row) :
    (s.streams.set ref row').total identityCount = s.streams.total identityCount := by
  have hs := Table.total_set identityCount row' hr
  omega

theorem Retires.total (h : Retires s ref expiryAt streams) :
    streams.total identityCount = s.streams.total identityCount := by
  cases h with
  | nothing => rfl
  | planned h => exact total_set_same h.row rfl

structure Counted (limit : Nat) (s : State) : Prop where
  exact : s.publishIdCount = s.streams.total identityCount
  limited : s.publishIdCount ≤ limit
  limit : s.publishIdLimit = limit

theorem Counted.release (h : Counted limit s)
    (hc : ∀ receipt ∈ receipts, ∃ row, s.streams.get receipt.stream = some row ∧
      receipt.retryEpoch < row.retryEpoch) : Counted limit (releaseLocked receipts s).2 := by
  obtain ⟨count, streams', hr, ht, -⟩ := releaseIdentities_spec 0 hc
  have he := h.exact
  have hl := h.limited
  rw [releaseLocked, hr, Nat.zero_add]
  dsimp only
  rw [if_neg (by omega)]
  refine ⟨?_, (Nat.sub_le _ _).trans hl, h.limit⟩
  change s.publishIdCount - count = streams'.total identityCount
  omega

theorem Change.counted (h : Change sha384 localNode s call events s')
    (hco : Counted limit s) : Counted limit s' := by
  obtain ⟨he, hl, hli⟩ := hco
  cases h with
  | declare _ hn =>
    refine ⟨?_, hl, hli⟩
    rw [total_set_new identityCount _ hn]
    exact he
  | append ha =>
    rename_i request stream record
    have hs := Table.total_set identityCount (stream.push request record) ha.row
    have hp : identityCount (stream.push request record) = identityCount stream + 1 :=
      size_set_new _ ha.fresh
    refine ⟨?_, hli ▸ ha.limit, hli⟩
    change s.publishIdCount + 1 = (s.streams.set request.stream (stream.push request record)).total
      identityCount
    omega
  | closeEpoch hro => exact ⟨he.trans (total_set_same hro rfl).symm, hl, hli⟩
  | release hc => exact Counted.release ⟨he, hl, hli⟩ (checkReceipts_ok hc)
  | retire hr | maintain _ _ hr _ => exact ⟨he.trans hr.total.symm, hl, hli⟩
  | _ => exact ⟨he, hl, hli⟩

/-! ## Whole histories -/

structure Published (localNode : FederationNodeId) (limit : Nat) (log : List Event) (s : State) :
    Prop where
  own : ∀ ref row, s.streams.get ref = some row → ref.publisher = localNode
  rows : ∀ ref row, s.streams.get ref = some row → Ledger ref (publications ref log) row
  absent : ∀ ref, s.streams.get ref = none → publications ref log = []
  counted : Counted limit s

theorem PublishedStream.Moves.ledger
    {items new : List Publication} (h : row.Moves sha384 localNode s s' call ref new row')
    (hl : Ledger ref items row) : Ledger ref (items ++ new) row' := by
  cases h with
  | same => rwa [append_nil]
  | push hs ha =>
    obtain ⟨sequence, hn, hr⟩ := ha.created
    exact hl.push hs ha.epoch ha.fresh hn hr
  | closeEpoch =>
    rw [append_nil]
    exact hl.closeEpoch
  | release hre =>
    rw [append_nil]
    exact hl.release hre
  | retire _ hp =>
    rw [append_nil]
    exact hl.retire hp

theorem publications_append (ref : StreamRef) (log more : List Event) :
    publications ref (log ++ more) = publications ref log ++ publications ref more :=
  filterMap_append

theorem Change.own (h : Change sha384 localNode s call events s')
    (ho : ∀ ref row, s.streams.get ref = some row → ref.publisher = localNode) (ref : StreamRef)
    (row' : PublishedStream) (hr' : s'.streams.get ref = some row') :
    ref.publisher = localNode := by
  rcases (h.stream ref).origin hr' with ⟨-, -, spec, -, hp, -⟩ | ⟨row, hr, -⟩
  · exact hp
  · exact ho ref row hr

theorem Change.published {log : List Event}
    (h : Change sha384 localNode s call events s') (hp : Published localNode limit log s) :
    Published localNode limit (log ++ events) s' := by
  refine ⟨h.own hp.own, fun ref row' hr' => ?_, fun ref ha => ?_, h.counted hp.counted⟩
  all_goals rw [publications_append]
  · rcases (h.stream ref).origin hr' with ⟨hr, hsi, spec, -, -, rfl⟩ | ⟨row, hr, hm⟩
    · rw [hp.absent ref hr, hsi]
      exact .declare spec
    · exact hm.ledger (hp.rows ref row hr)
  · cases hr : s.streams.get ref with
    | none => rw [hp.absent ref hr, h.publications_absent hr, append_nil]
    | some row =>
      obtain ⟨_, hs, -⟩ := (h.stream ref).of_some hr
      cases ha.symm.trans hs

theorem published_run (limit : Nat) (calls : List Call) :
    Published localNode limit (log sha384 localNode (State.new limit) calls)
      (run sha384 localNode (State.new limit) calls) := by
  have hnew : Published localNode limit [] (State.new limit) :=
    ⟨nofun, nofun, fun _ _ => rfl, rfl, Nat.zero_le limit, rfl⟩
  refine Machine.collect_invariant (fun log s call h => ?_) hnew calls
  obtain ⟨t, hc⟩ := step_change sha384 localNode s call
  exact hc.published ⟨h.own, h.rows, h.absent, h.counted.exact, h.counted.limited, h.counted.limit⟩

end Xolotl.Federation
