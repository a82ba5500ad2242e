import Xolotl.Federation.Publication

/-! Inboxes: the records accepted into one are numbered without gaps, the inbox is what retirement
has left of them, and a projection follows record by record. -/

namespace Xolotl.Federation

open Word Fallible List

/-! ## The accepted records -/

variable (ref : SubscriptionRef)

def Event.acceptedInto : Event → Option Record
  | .published _ _ => none
  | .accepted subscription record => if subscription = ref then some record else none

def acceptedInto (ref : SubscriptionRef) (log : List Event) : List Record :=
  log.filterMap (Event.acceptedInto ref)

theorem acceptedInto_append (log new : List Event) :
    acceptedInto ref (log ++ new) = acceptedInto ref log ++ acceptedInto ref new :=
  filterMap_append

theorem acceptedInto_self (records : List Record) :
    acceptedInto ref (records.map (.accepted ref)) = records := by
  have hs : Event.acceptedInto ref ∘ Event.accepted ref = some := funext fun _ => if_pos rfl
  rw [acceptedInto, filterMap_map, hs, filterMap_some]

namespace ReceivedSubscription

def start (row : ReceivedSubscription) : Nat := sequenceOrZero row.opened.start

def projectedThrough (row : ReceivedSubscription) : Nat :=
  sequenceOrZero (row.projected.or row.opened.start)

/-- The row after `items` have been accepted and the first `dropped` of them retired. -/
structure Copied (items : List Record) (dropped : Nat) (row : ReceivedSubscription) : Prop where
  retained : Retained Record.sequence row.start items dropped row.inbox
  received : row.received = items.getLast?.map Record.position
  anchored : row.retiredThrough = (anchor items dropped).map Record.position
  behind : row.start + dropped ≤ row.projectedThrough
  ahead : row.projectedThrough ≤ row.start + items.length
  reported : ∀ position ∈ row.projected,
    row.opened.start = some position ∨ ∃ item ∈ items, item.position = position

variable {items more : List Record} {dropped : Nat} {row row' : ReceivedSubscription}
  {item : Record}
  {position : Position}

theorem expected_eq (row : ReceivedSubscription) :
    row.expected = checkedSucc (sequenceOrZero (row.received.or row.opened.start)) := by
  unfold expected
  split <;> rename_i h <;> rw [h] <;> rfl

theorem firstRetained_eq (row : ReceivedSubscription) : row.firstRetained =
      orError (checkedSucc (sequenceOrZero (row.retiredThrough.or row.opened.start)))
        .capacity := by
  unfold firstRetained
  split <;> rename_i h <;> rw [h] <;> rfl

theorem firstOfPage_eq (row : ReceivedSubscription) (after : Option Position) :
    row.firstOfPage after =
      checkedSucc (sequenceOrZero ((after.or row.retiredThrough).or row.opened.start)) := by
  unfold firstOfPage
  split <;> rename_i h <;> rw [h] <;> rfl

namespace Copied

theorem new (opened : OpenResult) (current : AuthorityRevision) :
    Copied [] 0 (.new opened current) :=
  ⟨.empty _ _, rfl, rfl, Nat.le_refl _, Nat.le_refl _, nofun⟩

variable (h : Copied items dropped row)
include h

theorem numbered : Consecutive Record.sequence (row.start + 1) items := h.retained.numbered

theorem last : sequenceOrZero (row.received.or row.opened.start) = row.start + items.length := by
  rw [h.received]
  cases hlast : items.getLast? with
  | none =>
    rw [List.getLast?_eq_none_iff.mp hlast]
    rfl
  | some item => exact h.retained.number_getLast hlast

theorem retired :
    sequenceOrZero (row.retiredThrough.or row.opened.start) = row.start + dropped := by
  rw [h.anchored]
  cases ha : anchor items dropped with
  | none =>
    have hzero : dropped = 0 := by
      by_contra hne
      obtain ⟨item, -, hi, -⟩ := h.retained.anchor_eq (Nat.pos_of_ne_zero hne)
      cases ha.symm.trans hi
    rw [hzero]
    rfl
  | some item => exact (h.retained.number_anchor ha).2.2

theorem firstRetained_ok {first : Nat}
    (hf : row.firstRetained = .ok first) : first = row.start + dropped + 1 := by
  rw [firstRetained_eq, h.retired, orError_ok, checkedSucc_eq_some] at hf
  exact hf.2

theorem locate_ok (hl : row.locate position = .ok ()) : row.opened.start = some position ∨
      ∃ item ∈ items, item.position = position ∧ row.start + dropped ≤ item.sequence := by
  unfold locate at hl
  split at hl
  next hk =>
    rcases hk with hr | hst
    · rw [h.anchored, Option.map_eq_some_iff] at hr
      obtain ⟨item, ha, hpos⟩ := hr
      obtain ⟨-, hm, hn⟩ := h.retained.number_anchor ha
      exact .inr ⟨item, hm, hpos, hn.ge⟩
    · exact .inl hst
  split at hl
  · cases hl
  split at hl
  · cases hl
  simp only [bind_ok, require_ok, orError_ok] at hl
  obtain ⟨first, hf, -, hle, item, hi, hd⟩ := hl
  obtain rfl := h.firstRetained_ok hf
  have hse := h.retained.kept_numbered.getElem? hi
  have hm := mem_of_getElem? hi
  have hs : item.sequence = position.sequence := by omega
  exact .inr ⟨item, h.retained.mem_of_kept hm, Position.ext hs hd, by omega⟩

omit h in
theorem unmatched {known : Option Position}
    (hk : ∀ other ∈ known, other.sequence ≠ position.sequence) :
    known ≠ some position ∧ ¬ known.any (·.sequence = position.sequence) = true := by
  cases known with
  | none => exact ⟨nofun, nofun⟩
  | some other =>
    have hne := hk other rfl
    refine ⟨fun heq => ?_, fun heq => ?_⟩
    · rw [Option.some.inj heq] at hne
      exact hne rfl
    · exact hne (of_decide_eq_true heq)

theorem firstRetained (hr : row.start + dropped < u64Max) :
    row.firstRetained = .ok (row.start + dropped + 1) := by
  rw [firstRetained_eq, h.retired, orError_ok, checkedSucc_eq_some]
  exact ⟨hr, rfl⟩

theorem unknown (hi : item ∈ items) (hne : item.sequence ≠ row.start + dropped) :
    (∀ other ∈ row.retiredThrough, other.sequence ≠ item.position.sequence) ∧
      ∀ other ∈ row.opened.start, other.sequence ≠ item.position.sequence := by
  refine ⟨fun other ho heq => hne ?_, fun other ho heq => ?_⟩
  · rw [← h.retired, ho]
    exact heq.symm
  · have hzero : row.start = other.sequence := by rw [start, ho]; rfl
    have hb := (h.numbered.bounds hi).1
    have hse : other.sequence = item.sequence := heq
    omega

theorem locate (hi : item ∈ items)
    (hk : row.start + dropped ≤ item.sequence) : row.locate item.position = .ok () := by
  unfold ReceivedSubscription.locate
  by_cases ha : item.sequence = row.start + dropped
  · have hpos : 0 < dropped := by
      have hb := h.numbered.bounds hi
      omega
    obtain ⟨found, hm, hf, hnu⟩ := h.retained.anchor_eq hpos
    obtain rfl := h.numbered.unique hi hm (ha.trans hnu.symm)
    rw [if_pos (.inl (by rw [h.anchored, hf]; rfl))]
  have hl : row.start + dropped < item.sequence := Nat.lt_of_le_of_ne hk (Ne.symm ha)
  obtain ⟨hr, hs⟩ := h.unknown hi ha
  rw [if_neg (not_or.mpr ⟨(unmatched hr).1, (unmatched hs).1⟩), if_neg (unmatched hr).2,
    if_neg (unmatched hs).2]
  have hfs := h.firstRetained (hl.trans_le item.bounded)
  simp only [bind_ok, require_ok, orError_ok]
  have hf := (h.retained.kept_numbered.mem_iff.mp ((h.retained.mem_kept_iff hi).mpr hl)).2
  exact ⟨_, hfs, (), hl, item, hf, rfl⟩

theorem project (hk : row.forgotten position = false) (hlo : row.locate position = .ok ()) :
    Copied items dropped { row with projected := some position } := by
  have hb : row.start + dropped ≤ position.sequence ∧
      position.sequence ≤ row.start + items.length := by
    rcases h.locate_ok hlo with hst | ⟨item, hi, rfl, hle⟩
    · have hse : row.start = position.sequence := by rw [start, hst]; rfl
      -- a retired record would have made the start unknown
      have hzero : dropped = 0 := by
        by_contra hne
        obtain ⟨found, -, hf, hn⟩ := h.retained.anchor_eq (Nat.pos_of_ne_zero hne)
        have hr : row.retiredThrough = some found.position := by rw [h.anchored, hf]; rfl
        have hl : position.sequence < found.position.sequence := by
          change position.sequence < found.sequence
          omega
        rw [forgotten, hr, Bool.and_eq_false_iff] at hk
        rcases hk with hle | hs
        · exact of_decide_eq_false hle hl.le
        · rw [Option.some.inj (not_not.mp (of_decide_eq_false hs))] at hl
          exact Nat.lt_irrefl _ hl
      omega
    · have hbd := h.numbered.bounds hi
      exact ⟨hle, by change item.sequence ≤ _; omega⟩
  refine ⟨h.retained, h.received, h.anchored, hb.1, hb.2, ?_⟩
  rintro _ ⟨⟩
  exact (h.locate_ok hlo).imp_right fun ⟨item, hi, heq, _⟩ => ⟨item, hi, heq⟩

theorem retire {first count maxRecords : Nat}
    (hf : row.firstRetained = .ok first) (hc : count ≤ row.eligible first maxRecords)
    (hl : count ≤ row.inbox.length) : Copied items (dropped + count) (row.retire count) := by
  obtain rfl := h.firstRetained_ok hf
  have hr := h.retained
  refine ⟨hr.retire hl, h.received, ?_, ?_, h.ahead, h.reported⟩
  · change ((row.inbox.take count).getLast?.map Record.position).or row.retiredThrough = _
    rw [h.anchored, hr.suffix, anchor, anchor, take_add, List.getLast?_append]
    cases (List.take count (items.drop dropped)).getLast? <;> rfl
  · change row.start + (dropped + count) ≤ row.projectedThrough
    have hb := h.behind
    unfold eligible at hc
    split at hc
    · omega
    next projected hp =>
      have ht : row.projectedThrough = projected.sequence := by
        rw [projectedThrough, hp]
        rfl
      split at hc <;> omega

theorem moves (hm : row.Moves more row') :
    ∃ dropped', Copied (items ++ more) dropped' row' := by
  cases hm with
  | same => exact ⟨dropped, by rwa [append_nil]⟩
  | @push record hn =>
    rw [expected_eq, h.last, checkedSucc_eq_some] at hn
    refine ⟨dropped, h.retained.push hn.2, ?_, ?_, h.behind, ?_, ?_⟩
    · rw [List.getLast?_concat]
      rfl
    · rw [h.retained.anchor_push]
      exact h.anchored
    · have ha := h.ahead
      rw [length_append]
      exact ha.trans (Nat.add_le_add_left (Nat.le_add_right _ _) _)
    · exact fun position hpos => (h.reported position hpos).imp_right
        fun ⟨item, hi, heq⟩ => ⟨item, mem_append_left _ hi, heq⟩
  | project hk hlo => exact ⟨dropped, by rw [append_nil]; exact h.project hk hlo⟩
  | retire hf hc hl =>
    exact ⟨_, by rw [append_nil]; exact h.retire hf hc hl⟩

theorem advances (hm : row.Moves more row') : row.projectedThrough ≤ row'.projectedThrough ∧
      row'.projectedThrough ≤ row.projectedThrough + 1 := by
  cases hm with
  | same | push | retire => exact ⟨Nat.le_refl _, Nat.le_succ _⟩
  | @project position hk hlo hg hl =>
    have hg' : position.sequence ≤ row.projectedThrough + 1 := by
      unfold expectedProjection at hg
      unfold projectedThrough
      split at hg
      next hn =>
        rw [hn]
        exact hg
      next reached hr =>
        rw [hr]
        refine hg.trans ?_
        unfold saturatingSucc
        split
        · exact Nat.le_refl _
        · exact Nat.le_succ_of_le (Nat.le_of_not_lt ‹_›)
    refine ⟨?_, hg'⟩
    cases hp : row.projected with
    | none =>
      have hb := (h.project hk hlo).behind
      rw [projectedThrough, hp]
      exact (Nat.le_add_right _ _).trans hb
    | some projected =>
      rw [projectedThrough, hp]
      exact (hl projected hp).le

end Copied

end ReceivedSubscription

/-! ## Whole histories -/

open ReceivedSubscription

variable {sha384 : Hash} {localNode : FederationNodeId} {s s' : State} {call : Call}
  {log new : List Event}

theorem Change.inbox (h : Change sha384 localNode s call new s') (ref : SubscriptionRef) :
    acceptedInto ref new = [] ∧ Table.Turns (fun row => ∃ opened current, row = .new opened current)
        (· = ·) (s.receivedSubscriptions.get ref) (s'.receivedSubscriptions.get ref) ∨
      ∃ row row', s.receivedSubscriptions.get ref = some row ∧
        s'.receivedSubscriptions.get ref = some row' ∧ row.Moves (acceptedInto ref new) row' := by
  cases h with
  | installed hf =>
    rename_i opened current
    refine .inl ⟨rfl, .set (fun _ => rfl) ?_⟩
    rintro rfl
    rw [hf]
    exact .appears ⟨opened, current, rfl⟩
  | moved hr hm =>
    rename_i other row row' records
    by_cases hs : other = ref
    · subst hs
      refine .inr ⟨row, row', hr, Table.get_set_self .., ?_⟩
      rwa [acceptedInto_self]
    · have hn : acceptedInto ref (records.map (.accepted other)) = [] := by
        rw [acceptedInto, filterMap_map, filterMap_eq_nil_iff]
        exact fun record _ => if_neg hs
      refine .inl ⟨hn, ?_⟩
      exact .set (fun _ => rfl) fun heq => absurd heq.symm hs
  | release =>
    rename_i receipts _
    obtain ⟨streams, count, hst⟩ := releaseLocked_state receipts s
    rw [hst]
    exact .inl ⟨rfl, .same (fun _ => rfl) _⟩
  | _ => exact .inl ⟨rfl, .same (fun _ => rfl) _⟩

structure Inboxes (log : List Event) (s : State) : Prop where
  absent : ∀ ref, s.receivedSubscriptions.get ref = none → acceptedInto ref log = []
  copied : ∀ ref row, s.receivedSubscriptions.get ref = some row →
    ∃ dropped, Copied (acceptedInto ref log) dropped row

theorem inboxes_step (log : List Event) (s : State) (call : Call) (h : Inboxes log s) :
    Inboxes (log ++ events sha384 localNode s call) (step sha384 localNode s call).2 := by
  obtain ⟨t, hch⟩ := step_change sha384 localNode s call
  have hc := fun ref => hch.inbox ref
  change ∀ ref, _ ∧ Table.Turns _ _ (s.receivedSubscriptions.get ref) _ ∨
    ∃ row row', s.receivedSubscriptions.get ref = some row ∧ _ at hc
  refine ⟨fun ref hn => ?_, fun ref row hr => ?_⟩
  · rw [acceptedInto_append]
    rcases hc ref with ⟨hne, ht⟩ | ⟨row, row', -, hr', -⟩
    · rw [hne, append_nil]
      cases hold : s.receivedSubscriptions.get ref with
      | none => exact h.absent ref hold
      | some row =>
        obtain ⟨_, hs, -⟩ := ht.of_some hold
        cases hn.symm.trans hs
    · cases hn.symm.trans hr'
  · rw [acceptedInto_append]
    rcases hc ref with ⟨hne, ht⟩ | ⟨old, row', hold, hr', hm⟩
    · rw [hne, append_nil]
      rcases ht.origin hr with ⟨hold, opened, current, rfl⟩ | ⟨_, hold, rfl⟩
      · rw [h.absent ref hold]
        exact ⟨0, .new opened current⟩
      · exact h.copied ref _ hold
    · cases hr.symm.trans hr'
      obtain ⟨dropped, hco⟩ := h.copied ref old hold
      exact hco.moves hm

theorem inboxes_run (limit : Nat) (calls : List Call) :
    Inboxes (Federation.log sha384 localNode (.new limit) calls)
      (run sha384 localNode (.new limit) calls) := by
  have hs : Inboxes [] (State.new limit) := ⟨fun _ _ => rfl, nofun⟩
  exact Machine.collect_invariant inboxes_step hs calls

/-! ## Paging -/

variable {records items : List Record}

theorem pageRecords_fit {maxBytes bytes : Nat} {page : List Record}
    (hm : maxBytes ≤ maxInboxBytes) (hfi : ∀ record ∈ records, record.payload.length ≤ maxBytes)
    (hbs : bytes ≤ maxBytes) (he : page = [] → bytes = 0) :
    ∃ more, pageRecords maxBytes records bytes page = .ok (page ++ more) ∧ more <+: records ∧
      (page = [] → records ≠ [] → more ≠ []) := by
  induction records generalizing bytes page with
  | nil => exact ⟨[], by rw [append_nil]; rfl, prefix_refl [], fun _ h => absurd rfl h⟩
  | cons record records ih =>
    obtain ⟨hre, hr⟩ := forall_mem_cons.mp hfi
    have hw : ¬ u64Max < bytes + record.payload.length := by
      have hi : maxInboxBytes + maxInboxBytes ≤ u64Max := by decide
      omega
    simp only [pageRecords, if_neg hw]
    by_cases hf : maxBytes < bytes + record.payload.length
    · have hp : page ≠ [] := by
        intro hp
        have hzero := he hp
        omega
      rw [if_pos hf, if_neg hp]
      exact ⟨[], by rw [append_nil], nil_prefix, fun h => absurd h hp⟩
    · rw [if_neg hf]
      obtain ⟨more, hp, ⟨rest, hr⟩, -⟩ := ih hr (Nat.le_of_not_lt hf)
        fun h => absurd h (concat_ne_nil _ _)
      refine ⟨record :: more, by rw [hp, append_assoc]; rfl, ⟨rest, by rw [← hr]; rfl⟩, ?_⟩
      exact fun _ _ => cons_ne_nil _ _

namespace ReceivedSubscription

variable {items : List Record} {dropped count maxRecords maxBytes : Nat}
  {row : ReceivedSubscription}
  {after : Option Position}

/-- A page may start after the first `count` accepted records. -/
structure Resumes (items : List Record) (dropped : Nat) (row : ReceivedSubscription)
    (after : Option Position) (count : Nat) : Prop where
  located : row.admitAfter after = .ok ()
  reached : sequenceOrZero ((after.or row.retiredThrough).or row.opened.start) = row.start + count
  lower : dropped ≤ count
  upper : count ≤ items.length

variable (h : Copied items dropped row)
include h

theorem Copied.resumes_none : Resumes items dropped row none dropped :=
  ⟨rfl, h.retired, Nat.le_refl _, h.retained.within⟩

theorem Copied.resumes_item {item : Record} (hi : item ∈ items)
    (hk : row.start + dropped ≤ item.sequence) :
    Resumes items dropped row (some item.position) (item.sequence - row.start) := by
  have hb := h.numbered.bounds hi
  refine ⟨?_, ?_, by omega, by omega⟩
  · simp only [admitAfter, bind_ok, require_ok]
    refine ⟨(), fun start hs => ?_, h.locate hi hk⟩
    have hse : row.start = start.sequence := by rw [ReceivedSubscription.start, hs]; rfl
    change start.sequence ≤ item.sequence
    omega
  · change item.sequence = _
    omega

theorem Copied.offset (hre : Resumes items dropped row after count)
    (hr : row.start + dropped < u64Max) :
    ∃ offset, row.offset after = .ok offset ∧ row.inbox.drop offset = items.drop count := by
  have hl := hre.lower
  simp only [ReceivedSubscription.offset, h.firstRetained hr, firstOfPage_eq, hre.reached,
    checkedSucc]
  by_cases hlast : row.start + count < u64Max
  · rw [if_pos hlast]
    refine ⟨count - dropped, ?_, ?_⟩
    · have hle : row.start + dropped + 1 ≤ row.start + count + 1 := by omega
      have hs : row.start + count + 1 - (row.start + dropped + 1) = count - dropped := by omega
      simp only [bind, Except.bind, require, if_pos hle, hs]
      rfl
    · rw [h.retained.suffix, drop_drop, Nat.add_sub_cancel' hl]
  · rw [if_neg hlast]
    refine ⟨row.inbox.length, rfl, ?_⟩
    -- no sequence is left, so the last accepted record has been reached
    have ha : items.length ≤ count := by
      by_contra hm
      obtain ⟨item, hi, hn⟩ := h.numbered.exists_item (n := row.start + items.length)
        (by omega) (by omega)
      have hb : item.sequence ≤ u64Max := item.bounded
      omega
    rw [drop_length, drop_eq_nil_iff.mpr ha]

theorem Copied.page_retired {item : Record} (hi : item ∈ items)
    (hk : item.sequence < row.start + dropped) (hr : row.start + dropped < u64Max) :
    row.page (some item.position) maxRecords maxBytes =
      .error (.resyncRequired (row.start + dropped + 1)) := by
  have hb := h.numbered.bounds hi
  obtain ⟨hre, hst⟩ := h.unknown hi (Nat.ne_of_lt hk)
  have hbefore : ∀ start ∈ row.opened.start, start.sequence ≤ item.position.sequence := by
    intro start hs
    have hse : row.start = start.sequence := by rw [ReceivedSubscription.start, hs]; rfl
    change start.sequence ≤ item.sequence
    omega
  have hfirst : ¬ row.start + dropped + 1 ≤ item.position.sequence := by
    change ¬ row.start + dropped + 1 ≤ item.sequence
    omega
  have hlocate : row.locate item.position =
      .error (.resyncRequired (row.start + dropped + 1)) := by
    unfold ReceivedSubscription.locate
    rw [if_neg (not_or.mpr ⟨(unmatched hre).1, (unmatched hst).1⟩), if_neg (unmatched hre).2,
      if_neg (unmatched hst).2, h.firstRetained hr]
    simp only [bind, Except.bind, require, if_neg hfirst]
  simp only [ReceivedSubscription.page, admitAfter, bind, Except.bind, require, if_pos hbefore,
    hlocate]

theorem Copied.page (hre : Resumes items dropped row after count)
    (hro : row.start + dropped < u64Max) (hr : maxRecords ≠ 0)
    (hma : maxBytes ≤ maxInboxBytes)
    (hfi : ∀ record ∈ row.inbox, record.payload.length ≤ maxBytes) :
    ∃ records, row.page after maxRecords maxBytes = .ok records ∧ records <+: items.drop count ∧
      (items.drop count ≠ [] → records ≠ []) := by
  obtain ⟨offset, ho, hd⟩ := h.offset hre hro
  have ht : ∀ record ∈ (row.inbox.drop offset).take maxRecords,
      record.payload.length ≤ maxBytes := fun record hrc =>
    hfi record (mem_of_mem_drop (mem_of_mem_take hrc))
  obtain ⟨records, hp, hf, hpr⟩ := pageRecords_fit hma ht (Nat.zero_le _)
    fun _ : ([] : List Record) = [] => rfl
  rw [hd] at hp hf hpr
  refine ⟨records, ?_, hf.trans ( take_prefix _ _), fun hm => hpr rfl ?_⟩
  · simp only [ReceivedSubscription.page, bind_ok]
    exact ⟨(), hre.located, offset, ho, by rw [hd]; exact hp⟩
  · rw [Ne, take_eq_nil_iff]
    exact not_or.mpr ⟨hr, hm⟩

end ReceivedSubscription

/-- Read an inbox page by page, each after the last record of the one before, to an empty page. -/
def readThrough (store : MemoryFederationStore) (clock : Clock) :
    Nat → State → InboxReadRequest → Result (List Record)
  | 0, _, _ => .ok []
  | fuel + 1, s, request =>
    match readInbox store clock s request with
    | (.error e, _) => .error e
    | (.ok page, s') =>
      match page.records.getLast? with
      | none => .ok []
      | some record =>
        (readThrough store clock fuel s' { request with after := some record.position }).map
          (page.records ++ ·)

structure Served (store : MemoryFederationStore) (clock : Clock) (s : State)
    (request : InboxReadRequest) (row : ReceivedSubscription) : Prop where
  found : s.receivedSubscriptions.get request.subscription = some row
  admitted : (store.lock clock s).1 = .ok ()
  limits : request.subscription.subscriber = store.localNode ∧ request.maxRecords ≠ 0 ∧
    request.maxRecords ≤ maxInboxRecords ∧ request.maxBytes ≠ 0 ∧ request.maxBytes ≤ maxInboxBytes
  stream : row.opened.stream = request.expectedStream
  authorized : authority s row.opened.stream.publisher row.opened.exportName false =
    .ok row.localAuthority

variable {store : MemoryFederationStore} {clock : Clock} {request : InboxReadRequest}
  {row : ReceivedSubscription}

theorem lock_again (h : (store.lock clock s).1 = .ok ()) :
    (store.lock clock (store.lock clock s).2).1 = .ok () := by
  unfold MemoryFederationStore.lock at h ⊢
  split at h
  next => rfl
  next decision _ =>
    split at h
    · cases h
    next nowMs =>
      simp only [FederationDecision.check] at h ⊢
      split at h
      · cases h
      next hf =>
        rw [Nat.max_eq_right (Nat.le_of_not_lt hf), if_neg (Nat.lt_irrefl _)]
        exact h

theorem Served.readInbox_eq (h : Served store clock s request row) (after : Option Position) :
    ∃ s', readInbox store clock s request =
        ((row.page request.after request.maxRecords request.maxBytes).map
          (⟨row.opened, row.received, row.projected, ·⟩), s') ∧
      Served store clock s' { request with after := after } row := by
  obtain ⟨t, ht⟩ := lock_state store clock s
  have had := h.admitted
  have ha := lock_again had
  refine ⟨s.sampled t, ?_, h.found, ht ▸ ha, h.limits, h.stream, h.authorized⟩
  unfold readInbox locked require
  rw [if_pos h.limits]
  rcases hl : store.lock clock s with ⟨answer, s₁⟩
  rw [hl] at ht had
  cases had
  subst ht
  have hf : (s.sampled t).receivedSubscriptions.get request.subscription = some row := h.found
  have hau : authority (s.sampled t) row.opened.stream.publisher row.opened.exportName false =
      .ok row.localAuthority := h.authorized
  simp only [hf, orError, bind, Except.bind, if_pos h.stream, hau]
  cases row.page request.after request.maxRecords request.maxBytes <;> rfl

theorem Served.read (h : Served store clock s request row)
    (hp : row.page request.after request.maxRecords request.maxBytes = .ok records)
    (after : Option Position) :
    ∃ s', readInbox store clock s request =
        (.ok ⟨row.opened, row.received, row.projected, records⟩, s') ∧
      Served store clock s' { request with after := after } row := by
  obtain ⟨s', hr, hs⟩ := h.readInbox_eq after
  rw [hp] at hr
  exact ⟨s', hr, hs⟩

theorem ReceivedSubscription.Copied.readThrough {dropped count fuel : Nat}
    (h : Copied items dropped row) (hs : Served store clock s request row)
    (hrs : Resumes items dropped row request.after count)
    (hro : row.start + dropped < u64Max)
    (hfi : ∀ record ∈ row.inbox, record.payload.length ≤ request.maxBytes)
    (hf : items.length - count < fuel) :
    Federation.readThrough store clock fuel s request = .ok (items.drop count) := by
  induction fuel generalizing s request count with
  | zero => exact absurd hf (Nat.not_lt_zero _)
  | succ fuel ih =>
    obtain ⟨records, hp, ⟨rest, hre⟩, hpr⟩ := h.page hrs hro hs.limits.2.1 hs.limits.2.2.2.2 hfi
    rw [Federation.readThrough]
    cases hlast : records.getLast? with
    | none =>
      obtain ⟨s', hr, -⟩ := hs.read hp none
      simp only [hr, hlast]
      rw [not_not.mp fun hm => hpr hm (List.getLast?_eq_none_iff.mp hlast)]
    | some record =>
      obtain ⟨s', hr, hs'⟩ := hs.read hp (some record.position)
      have hle : 0 < records.length := by
        rw [List.getLast?_eq_getElem?] at hlast
        exact Nat.zero_lt_of_lt (List.getElem?_eq_some_iff.mp hlast).1
      -- the last record of the page is the one the next page resumes after
      have hi : items[count + records.length - 1]? = some record := by
        have ha : count + records.length - 1 = count + (records.length - 1) := by omega
        rw [ha, ← List.getElem?_drop, ← hre, List.getElem?_append_left (by omega),
          ← List.getLast?_eq_getElem?, hlast]
      have hse := h.numbered.getElem? hi
      have hl := hrs.lower
      have hn := h.resumes_item (mem_of_getElem? hi) (by omega)
      have hc : record.sequence - row.start = count + records.length := by omega
      rw [hc] at hn
      have hu := hn.upper
      simp only [hr, hlast]
      rw [ih hs' hn hfi (by omega), Except.map]
      rw [← drop_drop, ← hre, drop_left]

/-! ## The inbox as a copy -/

theorem ReceivedSubscription.Copied.acknowledged {dropped : Nat}
    (h : Copied items dropped row) {record : Record} {answer : AcceptResult}
    {row' : ReceivedSubscription} (ha : row.accept record = .ok (answer, row')) :
    if answer.newlyAccepted then record.sequence = row.start + items.length + 1
    else ∃ item ∈ items, item.position = record.position := by
  rcases accept_ok ha with ⟨rfl, hn, -⟩ | ⟨hold, -, -, -, hl, -, -, -, hst⟩
  · rw [expected_eq, h.last, checkedSucc_eq_some] at hn
    exact hn.2
  · rw [if_neg (by rw [hold]; exact Bool.false_ne_true)]
    rcases h.locate_ok hl with hs | ⟨item, hi, hpos, -⟩
    · exact absurd (hst _ hs) (Nat.lt_irrefl _)
    · exact ⟨item, hi, hpos⟩

/-- In every history an installed inbox is what retirement has left of a gapless sequence of
accepted records, only reported records are retired, reports advance one record at a time, no
record is acknowledged that differs from the accepted one, and paging returns every record after
a retained one or the last retired one, while it is refused after an earlier one. -/
theorem inbox_is_a_contiguous_copy (sha384 : Hash) (localNode : FederationNodeId) (limit : Nat)
    (calls : List Call) (ref : SubscriptionRef) (row : ReceivedSubscription)
    (hrow : (run sha384 localNode (.new limit) calls).receivedSubscriptions.get ref = some row) :
    let final := run sha384 localNode (.new limit) calls
    let items := acceptedInto ref (Federation.log sha384 localNode (.new limit) calls)
    ∃ dropped, Copied items dropped row ∧
    (∀ call, ∃ row',
      (step sha384 localNode final call).2.receivedSubscriptions.get ref = some row' ∧
      row.projectedThrough ≤ row'.projectedThrough ∧
      row'.projectedThrough ≤ row.projectedThrough + 1) ∧
    (∀ decision clock request answer, request.subscription = ref →
      (step sha384 localNode final ⟨decision, clock, .accept request⟩).1 = .ok (.accepted answer) →
      if answer.newlyAccepted then request.record.sequence = row.start + items.length + 1
      else ∃ item ∈ items, item.position = request.record.position) ∧
    ∀ store clock request, Served store clock final request row →
      row.start + dropped < u64Max →
      (∀ item ∈ items, item.sequence < row.start + dropped →
        request.after = some item.position → (readInbox store clock final request).1 =
          .error (.resyncRequired (row.start + dropped + 1))) ∧
      ∀ fuel, (∀ record ∈ row.inbox, record.payload.length ≤ request.maxBytes) →
      items.length < fuel →
      (request.after = none → readThrough store clock fuel final request = .ok row.inbox) ∧
      ∀ item ∈ items, row.start + dropped ≤ item.sequence → request.after = some item.position →
        readThrough store clock fuel final request =
          .ok (items.drop (item.sequence - row.start)) := by
  intro final items
  obtain ⟨dropped, hcopied⟩ := (inboxes_run limit calls).copied ref row hrow
  refine ⟨dropped, hcopied, fun call => ?_, ?_, ?_⟩
  · obtain ⟨t, hchange⟩ := step_change sha384 localNode final call
    rcases hchange.inbox ref with ⟨-, hturns⟩ | ⟨old, row', hold, hrow', hmoves⟩
    · obtain ⟨_, hsome, rfl⟩ := hturns.of_some hrow
      exact ⟨row, hsome, Nat.le_refl _, Nat.le_succ _⟩
    · cases hrow.symm.trans hold
      exact ⟨row', hrow', hcopied.advances hmoves⟩
  · rintro decision clock request answer rfl hok
    obtain ⟨-, t, b, s', hbody, hstep⟩ := (transacted ..).of_ok rfl hok
    rw [hstep] at hok
    cases hok
    simp only [bind_ok] at hbody
    obtain ⟨found, hfound, ⟨_, row'⟩, haccept, h⟩ := hbody
    cases h
    cases hrow.symm.trans (receivedUnder_ok hfound)
    exact hcopied.acknowledged haccept
  · intro store clock request hserved hroom
    refine ⟨fun item hitem hretired hafter => ?_, fun fuel hfit hfuel =>
      ⟨fun hafter => ?_, fun item hitem hkept hafter => ?_⟩⟩
    · obtain ⟨s', hread, -⟩ := hserved.readInbox_eq none
      rw [hread, hafter, hcopied.page_retired hitem hretired hroom]
      rfl
    · rw [hcopied.retained.suffix]
      refine hcopied.readThrough hserved ?_ hroom hfit (Nat.lt_of_le_of_lt (Nat.sub_le _ _) hfuel)
      rw [hafter]
      exact hcopied.resumes_none
    · refine hcopied.readThrough hserved ?_ hroom hfit (Nat.lt_of_le_of_lt (Nat.sub_le _ _) hfuel)
      rw [hafter]
      exact hcopied.resumes_item hitem hkept

namespace Sample

def publisher : FederationNodeId := node 2

def subscribed : SubscriptionRef := ⟨here, ⟨fixed 16 5⟩⟩

def remote : StreamRef := ⟨publisher, ⟨fixed 16 1⟩⟩

def received (sequence : Nat) (h : 0 < sequence ∧ sequence ≤ u64Max) : Record :=
  ⟨⟨remote, sequence, ⟨fixed 16 1⟩, ⟨"post", post_valid⟩, ⟨fixed 32 0⟩, none, [7]⟩, ⟨fixed 48 7⟩,
    ⟨fixed 48 8⟩, h.1, h.2⟩

def receive (record : Record) : Call := own (.accept ⟨publisher, subscribed, record⟩)

def project (record : Record) : Call :=
  own (.recordProjectionProgress ⟨subscribed, record.position⟩)

def receiving : List Call :=
  [own (.setPeerAuthority publisher none true),
    own (.setExportAuthority publisher exportName none ⟨false, true⟩),
    own (.installSubscription ⟨publisher,
      ⟨⟨fixed 16 1⟩, subscribed, remote, exportName, ⟨1, 1⟩, 1, none⟩⟩),
    receive (received 1 (by decide)), receive (received 2 (by decide)),
    receive (received 3 (by decide)), project (received 1 (by decide)),
    project (received 2 (by decide)), own (.retireProjectedInbox subscribed 2)]

def receiver : State := run checksum here (.new 0) receiving

def receiverRow : ReceivedSubscription :=
  (receiver.receivedSubscriptions.get subscribed).getD
    (.new ⟨⟨fixed 16 1⟩, subscribed, remote, exportName, ⟨1, 1⟩, 1, none⟩ ⟨1, 1⟩)

def reader : MemoryFederationStore := ⟨here, none⟩

def reading (after : Option Position) : InboxReadRequest := ⟨subscribed, remote, after, 8, 64⟩

theorem served (after : Option Position) :
    Served reader (.error .trustedTimeUnavailable) receiver (reading after) receiverRow :=
  ⟨rfl, rfl, by simp only [reading]; decide, rfl, by decide +kernel⟩

end Sample

open Sample in
/-- Reading on after the last retired record returns the record that is left, reading on after the
one before it is refused. -/
theorem inbox_is_a_contiguous_copy_received :
    receiverRow.inbox = [received 3 (by decide)] ∧
    readThrough reader (.error .trustedTimeUnavailable) 4 receiver
        (reading (received 2 (by decide)).position) = .ok [received 3 (by decide)] ∧
    (readInbox reader (.error .trustedTimeUnavailable) receiver
        (reading (received 1 (by decide)).position)).1 = .error (.resyncRequired 3) := by
  have hinbox : receiverRow.inbox = [received 3 (by decide)] := by decide +kernel
  have hitems : acceptedInto subscribed (Federation.log checksum here (.new 0) receiving) =
      [received 1 (by decide), received 2 (by decide), received 3 (by decide)] := by decide +kernel
  have hstart : receiverRow.start = 0 := by decide +kernel
  obtain ⟨dropped, hcopied, -, -, hpaging⟩ :=
    inbox_is_a_contiguous_copy checksum here 0 receiving subscribed receiverRow rfl
  rw [hitems] at hcopied hpaging
  obtain rfl : dropped = 2 := by
    have hsuffix := hcopied.retained.suffix
    have hwithin := hcopied.retained.within
    have hlength := congrArg List.length hsuffix
    rw [hinbox, length_drop] at hlength
    simp only [length_cons, length_nil] at hlength hwithin
    omega
  rw [hstart] at hpaging
  refine ⟨hinbox, ?_, ?_⟩
  · obtain ⟨-, hpages⟩ := hpaging reader _ _ (served _) (by decide)
    exact (hpages 4 (by rw [hinbox]; decide) (by decide)).2 (received 2 (by decide)) (by simp)
      (by decide) rfl
  · exact (hpaging reader _ _ (served _) (by decide)).1 (received 1 (by decide)) (by simp)
      (by decide) rfl

open Sample in
/-- Paging from an accepted record that was retired before the last retired one is refused, though a
later record is retained. -/
theorem paging_from_a_retired_record_is_refused :
    received 1 (by decide) ∈
      acceptedInto subscribed (Federation.log checksum here (.new 0) receiving) ∧
    receiverRow.inbox = [received 3 (by decide)] ∧
    (step checksum here receiver (own (.readInbox ⟨subscribed, remote,
      some (received 1 (by decide)).position, 8, 64⟩))).1 = .error (.resyncRequired 3) := by
  decide +kernel

end Xolotl.Federation
