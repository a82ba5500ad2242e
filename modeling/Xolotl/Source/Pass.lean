import Xolotl.Source.Evidence

/-! Maintenance passes: the cursor moves through the rows in key order, so between two ends each
row is examined, and examined once. -/

namespace Xolotl.Source

open Xolotl.Types Xolotl.State Word Fallible List Option OrderedMap

variable {host : Host} {options : InMemoryOptions} {m m' : SourceMemory}

/-! ## Rows in key order -/

def SourceMemory.HasRow (m : SourceMemory) (key : Bytes) : Prop :=
  (∃ record, m.events.get key = some record) ∨ (∃ record, m.rates.get key = some record) ∨
    ∃ row, m.sequences.get key = some row

namespace Evident

variable {key : Bytes}

theorem kinds (h : Evident m) :
    ((∃ record, m.events.get key = some record) → ∃ rest, key = kindEvent :: rest) ∧
    ((∃ record, m.rates.get key = some record) → ∃ rest, key = kindRate :: rest) ∧
    ((∃ row, m.sequences.get key = some row) → ∃ rest, key = kindStream :: rest) := by
  refine ⟨?_, ?_, ?_⟩
  · rintro ⟨record, hr⟩
    obtain ⟨name, -, rfl⟩ := h.events key record hr
    exact ⟨_, rfl⟩
  · rintro ⟨record, hr⟩
    obtain ⟨scope, -, -, rfl⟩ := h.rates key record hr
    exact ⟨_, rfl⟩
  · rintro ⟨row, hro⟩
    obtain ⟨name, -, -, rfl⟩ := h.streams key row hro
    exact ⟨_, rfl⟩

theorem cons_lt_cons_of_lt {a b : UInt8} (h : a < b) (x y : Bytes) : a :: x < b :: y :=
  List.Lex.rel h

theorem start_le (h : Evident m) (hr : m.HasRow key) : [kindEvent] ≤ key := by
  rcases hr with hr | hr | hr
  · obtain ⟨rest, rfl⟩ := h.kinds.1 hr
    cases rest with
    | nil => exact le_rfl
    | cons => exact le_of_lt (List.Lex.cons List.Lex.nil)
  · obtain ⟨rest, rfl⟩ := h.kinds.2.1 hr
    exact le_of_lt (cons_lt_cons_of_lt (by decide) _ _)
  · obtain ⟨rest, rfl⟩ := h.kinds.2.2 hr
    exact le_of_lt (cons_lt_cons_of_lt (by decide) _ _)

theorem mem_rowsAfter (h : Evident m) {prior : Option Bytes} :
    key ∈ m.rowsAfter prior ↔ m.HasRow key ∧ ∀ cursor ∈ prior, cursor < key := by
  unfold SourceMemory.rowsAfter
  simp only [mem_filter, mem_append, mem_keysFrom, Option.all_eq_true, decide_eq_true_iff]
  constructor
  · rintro ⟨(⟨hr, -⟩ | ⟨hr, -⟩) | ⟨hr, -⟩, ha⟩
    · exact ⟨.inl hr, ha⟩
    · exact ⟨.inr (.inl hr), ha⟩
    · exact ⟨.inr (.inr hr), ha⟩
  · rintro ⟨hr, ha⟩
    have hs : prior.getD [kindEvent] ≤ key := by
      cases prior with
      | none => exact h.start_le hr
      | some cursor => exact le_of_lt (ha cursor rfl)
    refine ⟨?_, ha⟩
    rcases hr with hr | hr | hr
    · exact .inl (.inl ⟨hr, hs⟩)
    · exact .inl (.inr ⟨hr, hs⟩)
    · exact .inr ⟨hr, hs⟩

theorem sorted_rowsAfter (h : Evident m) (prior : Option Bytes) :
    (m.rowsAfter prior).Pairwise (· < ·) := by
  refine List.Pairwise.filter _ (pairwise_append.mpr ⟨pairwise_append.mpr
    ⟨sorted_keysFrom _ _, sorted_keysFrom _ _, ?_⟩,
    sorted_keysFrom _ _, ?_⟩)
  · intro a ha b hb
    obtain ⟨x, rfl⟩ := h.kinds.1 (mem_keysFrom.mp ha).1
    obtain ⟨y, rfl⟩ := h.kinds.2.1 (mem_keysFrom.mp hb).1
    exact cons_lt_cons_of_lt (by decide) _ _
  · intro a ha b hb
    obtain ⟨y, rfl⟩ := h.kinds.2.2 (mem_keysFrom.mp hb).1
    rcases mem_append.mp ha with ha | ha
    · obtain ⟨x, rfl⟩ := h.kinds.1 (mem_keysFrom.mp ha).1
      exact cons_lt_cons_of_lt (by decide) _ _
    · obtain ⟨x, rfl⟩ := h.kinds.2.1 (mem_keysFrom.mp ha).1
      exact cons_lt_cons_of_lt (by decide) _ _

end Evident

/-! ## One maintenance step -/

theorem cursor_sweep (decisionAtMs : Int) (keys : List Bytes) (removed : Nat) (m : SourceMemory) :
    (SourceMemory.sweep decisionAtMs keys removed m).2.cursor = m.cursor :=
  SourceMemory.sweep_invariant (I := fun m₁ => m₁.cursor = m.cursor)
    (fun _ _ _ _ h hc => by cases hc <;> exact h) rfl removed

theorem maintain_cursor {decisionAtMs : Int} {limit : Nat}
    {result : SourceResult SourceMaintenanceResult}
    (h : m.maintain decisionAtMs limit = (result, m')) :
    (∀ e, result = .error e → m'.cursor = m.cursor) ∧
      ∀ done, result = .ok done →
        (done.reachedEnd = true → m'.cursor = none ∧ m.batch limit = m.rowsAfter m.cursor) ∧
        (done.reachedEnd = false → m'.cursor = (m.batch limit).getLast?.or m.cursor) := by
  unfold SourceMemory.maintain at h
  split at h
  next =>
    cases h
    exact ⟨fun _ _ => rfl, by rintro _ ⟨⟩⟩
  next =>
    dsimp only at h
    split at h
    next =>
      cases h
      exact ⟨fun _ _ => rfl, by rintro _ ⟨⟩⟩
    next floors _ =>
      have hc := cursor_sweep decisionAtMs ((m.rowsAfter m.cursor).take limit) 0
        { m with decisionTimeFloors := m.decisionTimeFloors.insertAll floors }
      split at h
      next heq =>
        rw [heq] at hc
        cases h
        exact ⟨fun _ _ => hc, by rintro _ ⟨⟩⟩
      next removed m₁ heq =>
        rw [heq] at hc
        cases h
        refine ⟨by rintro _ ⟨⟩, fun done hd => ?_⟩
        cases hd
        by_cases hm : limit < (m.rowsAfter m.cursor).length
        · rw [decide_eq_true hm, hc, SourceMemory.batch]
          refine ⟨by rintro ⟨⟩, fun _ => ?_⟩
          cases ((m.rowsAfter m.cursor).take limit).getLast? <;> rfl
        · rw [decide_eq_false hm]
          exact ⟨fun _ => ⟨rfl, take_of_length_le (not_lt.mp hm)⟩, by rintro ⟨⟩⟩

def examined (st : MemoryState) : Call → List Bytes
  | .maintain decisionAtMs limit =>
    match (st.journal.source.maintain decisionAtMs limit).1 with
    | .ok _ => st.journal.source.batch limit
    | .error _ => []
  | _ => []

def reachesEnd (host : Host) (options : InMemoryOptions) (st : MemoryState) (call : Call) : Bool :=
  match (step host options st call).1 with
  | .maintenance (.ok result) => result.reachedEnd
  | _ => false

variable {call : Call} {rows : List Bytes} {key : Bytes}

theorem examined_step (host : Host) (options : InMemoryOptions) (st : MemoryState) (call : Call) :
    (examined st call = [] ∧ reachesEnd host options st call = false ∧
      (step host options st call).2.journal.source.cursor = st.journal.source.cursor) ∨
    ∃ limit, examined st call = st.journal.source.batch limit ∧
      (reachesEnd host options st call = true →
        (step host options st call).2.journal.source.cursor = none ∧
          st.journal.source.batch limit = st.journal.source.rowsAfter st.journal.source.cursor) ∧
      (reachesEnd host options st call = false →
        (step host options st call).2.journal.source.cursor =
          (st.journal.source.batch limit).getLast?.or st.journal.source.cursor) := by
  by_cases hc : ∃ decisionAtMs limit, call = .maintain decisionAtMs limit
  · obtain ⟨decisionAtMs, limit, rfl⟩ := hc
    rcases h : st.journal.source.maintain decisionAtMs limit with ⟨result, m'⟩
    obtain ⟨he, hok⟩ := maintain_cursor h
    cases result with
    | error e =>
      refine .inl ⟨?_, ?_, ?_⟩
      · simp only [examined, h]
      · simp only [reachesEnd, step, h]
      · simp only [step, h]
        exact he e rfl
    | ok done =>
      refine .inr ⟨limit, ?_, ?_, ?_⟩
      · simp only [examined, h]
      · simp only [reachesEnd, step, h]
        exact (hok done rfl).1
      · simp only [reachesEnd, step, h]
        exact (hok done rfl).2
  · have ho : ∀ decisionAtMs limit, call ≠ .maintain decisionAtMs limit :=
      fun decisionAtMs limit heq => hc ⟨decisionAtMs, limit, heq⟩
    refine .inl ⟨?_, ?_, ((step_spec host options st call).2 ho).1⟩
    · cases call <;> first | rfl | exact absurd rfl (ho _ _)
    · cases call <;> first | rfl | exact absurd rfl (ho _ _)

/-! ## A pass -/

/-- The examined rows come in increasing order and the cursor has passed them all. -/
structure Progress (rows : List Bytes) (m : SourceMemory) : Prop where
  evident : Evident m
  sorted : rows.Pairwise (· < ·)
  passed : ∀ key ∈ rows, ∃ cursor, m.cursor = some cursor ∧ key ≤ cursor

theorem Progress.append_batch (h : Progress rows m) (limit : Nat) :
    (rows ++ m.batch limit).Pairwise (· < ·) := by
  refine pairwise_append.mpr
    ⟨h.sorted, (h.evident.sorted_rowsAfter _).sublist (take_sublist _ _), ?_⟩
  intro key hk row hr
  obtain ⟨cursor, hc, hle⟩ := h.passed key hk
  exact hle.trans_lt ((h.evident.mem_rowsAfter.mp (mem_of_mem_take hr)).2 cursor hc)

theorem le_getLast (h : rows.Pairwise (· < ·)) {last : Bytes}
    (hk : key ∈ rows) (hlast : rows.getLast? = some last) : key ≤ last := by
  obtain ⟨front, rfl⟩ := List.getLast?_eq_some_iff.mp hlast
  rcases mem_append.mp hk with hf | hs
  · exact le_of_lt ((pairwise_append.mp h).2.2 key hf last mem_cons_self)
  · exact le_of_eq (mem_singleton.mp hs)

variable {st : MemoryState} {receipt : SourceReceipt}

theorem progress_step
    (ho : reachesEnd host options st call = false) (h : Progress rows st.journal.source) :
    Progress (rows ++ examined st call) (step host options st call).2.journal.source := by
  have he := (step_change host options st call).evident h.evident
  rcases examined_step host options st call with ⟨hn, -, hc⟩ | ⟨limit, hr, -, hc⟩
  · rw [hn, append_nil]
    refine ⟨he, h.sorted, ?_⟩
    rw [hc]
    exact h.passed
  · rw [hr]
    have hs := h.append_batch limit
    refine ⟨he, hs, fun key hk => ?_⟩
    rw [hc ho]
    cases hlast : (st.journal.source.batch limit).getLast? with
    | none =>
      rw [List.getLast?_eq_none_iff.mp hlast, append_nil] at hk
      exact h.passed key hk
    | some last =>
      refine ⟨last, rfl, le_getLast hs hk ?_⟩
      rw [List.getLast?_append, hlast]
      rfl

theorem covered_step
    (ho : reachesEnd host options st call = false) (hro : st.journal.source.HasRow key)
    (he : Evident st.journal.source)
    (h : key ∈ rows ∨ ∀ cursor ∈ st.journal.source.cursor, cursor < key) :
    key ∈ rows ++ examined st call ∨
      ∀ cursor ∈ (step host options st call).2.journal.source.cursor, cursor < key := by
  rcases h with hse | ha
  · exact .inl (mem_append_left _ hse)
  rcases examined_step host options st call with ⟨-, -, hc⟩ | ⟨limit, hr, -, hc⟩
  · rw [hc]
    exact .inr ha
  · rw [hr, hc ho]
    have hs := he.sorted_rowsAfter st.journal.source.cursor
    have hm := he.mem_rowsAfter.mpr ⟨hro, ha⟩
    rw [← take_append_drop limit (st.journal.source.rowsAfter _)] at hs hm
    rcases mem_append.mp hm with hb | hl
    · exact .inl (mem_append_right _ hb)
    · refine .inr fun cursor hc => ?_
      cases hlast : (st.journal.source.batch limit).getLast? with
      | none =>
        rw [hlast] at hc
        exact ha cursor hc
      | some last =>
        rw [hlast] at hc
        cases hc
        exact (pairwise_append.mp hs).2.2 _ (mem_of_getLast? hlast) key hl

section Pass

variable {st : MemoryState} {pass : List Call} {last : Call}

def passRows (host : Host) (options : InMemoryOptions) (st : MemoryState) (calls : List Call) :
    List Bytes := Machine.collect (step host options) examined st calls

def Unended (host : Host) (options : InMemoryOptions) : MemoryState → List Call → Prop :=
  Machine.Along (step host options) fun st call => reachesEnd host options st call = false

def Present (host : Host) (options : InMemoryOptions) (key : Bytes) :
    MemoryState → List Call → Prop :=
  Machine.Along (step host options) fun st _ => st.journal.source.HasRow key

theorem progress_pass (he : Evident st.journal.source) (ho : Unended host options st pass) :
    Progress (passRows host options st pass) (run host options st pass).journal.source :=
  Machine.collect_invariant_along
    (I := fun rows (st : MemoryState) => Progress rows st.journal.source)
    (fun _ _ _ ho h => progress_step ho h) ⟨he, .nil, nofun⟩ pass ho

theorem passRows_append_singleton (st : MemoryState) (pass : List Call) (last : Call) :
    passRows host options st (pass ++ [last]) =
      passRows host options st pass ++ examined (run host options st pass) last := by
  rw [passRows, Machine.collect_append, Machine.collect, Machine.collect, append_nil]
  rfl

theorem sorted_pass (he : Evident st.journal.source) (ho : Unended host options st pass) :
    (passRows host options st (pass ++ [last])).Pairwise (· < ·) := by
  have hp := progress_pass he ho
  rw [passRows_append_singleton]
  rcases examined_step host options (run host options st pass) last with
    ⟨hn, -, -⟩ | ⟨limit, hr, -, -⟩
  · rw [hn, append_nil]
    exact hp.sorted
  · rw [hr]
    exact hp.append_batch limit

theorem mem_pass (he : Evident st.journal.source) (hcr : st.journal.source.cursor = none)
    (ho : Unended host options st pass)
    (hen : reachesEnd host options (run host options st pass) last = true) {key : Bytes}
    (hp : Present host options key st (pass ++ [last])) :
    key ∈ passRows host options st (pass ++ [last]) := by
  obtain ⟨ht, hlast, -⟩ := (Machine.along_append _ st pass [last]).mp hp
  have hc : Evident (run host options st pass).journal.source ∧
      (key ∈ passRows host options st pass ∨
        ∀ cursor ∈ (run host options st pass).journal.source.cursor, cursor < key) := by
    refine Machine.collect_invariant_along (l := []) (I := fun rows (st : MemoryState) =>
      Evident st.journal.source ∧ (key ∈ rows ∨ ∀ cursor ∈ st.journal.source.cursor, cursor < key))
      ?_ ⟨he, .inr fun cursor h => ?_⟩ pass (Machine.along_and _ ho ht)
    · rintro rows st call ⟨ho, hro⟩ ⟨he, h⟩
      exact ⟨(step_change host options st call).evident he, covered_step ho hro he h⟩
    · rw [hcr] at h
      cases h
  rw [passRows_append_singleton]
  rcases hc.2 with hs | ha
  · exact mem_append_left _ hs
  · refine mem_append_right _ ?_
    rcases examined_step host options (run host options st pass) last with
      ⟨-, ho, -⟩ | ⟨limit, hr, hf, -⟩
    · rw [hen] at ho
      cases ho
    · rw [hr, (hf hen).2]
      exact hc.1.mem_rowsAfter.mpr ⟨hlast, ha⟩

theorem cursor_of_reachesEnd (he : reachesEnd host options st last = true) :
    (step host options st last).2.journal.source.cursor = none := by
  rcases examined_step host options st last with ⟨-, ho, -⟩ | ⟨limit, -, hf, -⟩
  · rw [he] at ho
    cases ho
  · exact (hf he).1

end Pass

/-! ## Evidence over whole histories -/

theorem Evident.unique_receipt (h : Evident m) {record : AcceptedEvent}
    (hg : m.events.get key = some record) :
    ∃! receiptKey, ∃ receipt, m.receipts.get receiptKey = some receipt ∧
      receipt.name.key = key := by
  obtain ⟨name, hn, rfl⟩ := h.events key record hg
  obtain ⟨receipt, hr, rfl, -⟩ := h.proven name record hn hg
  refine ⟨_, ⟨receipt, hr, rfl⟩, ?_⟩
  rintro other ⟨receipt', hr', hk⟩
  obtain ⟨name', record', hn', hre', rfl⟩ := h.decided other receipt' hr'
  obtain ⟨proof, hp, rfl, -⟩ := h.proven name' record' hn' hre'
  cases hr'.symm.trans hp
  rw [hk, hg] at hre'
  cases hre'
  rw [EventName.key_inj hn'.1 hn.1 hk]

theorem Evident.decision_of_receipt (h : Evident m) (hg : m.receipts.get key = some receipt) :
    ∃ record, m.events.get receipt.name.key = some record ∧ record.claimId = receipt.claimId := by
  obtain ⟨name, record, hn, hr, rfl⟩ := h.decided key receipt hg
  obtain ⟨proof, hp, rfl, hc⟩ := h.proven name record hn hr
  cases hg.symm.trans hp
  exact ⟨record, hr, hc.symm⟩

theorem elim_committed {receipts : Option SourceReceipt} :
    receipts.elim .unproven .committed = SourceClaimEvidence.committed receipt ↔
      receipts = some receipt := by
  cases receipts <;> simp

theorem Evident.inspect_iff (h : Evident m) (claim : SourceClaim) :
    (∃ receipt, m.inspect claim = .ok (.committed receipt)) ↔ m.Retains claim := by
  simp only [h.inspect_eq, map_eq_ok, claimKey_eq_ok, elim_committed]
  constructor
  · rintro ⟨receipt, _, ⟨hn, rfl⟩, hr⟩
    exact (h.receipt_iff hn).mp ⟨receipt, hr⟩
  · intro hrt
    obtain ⟨receipt, hr⟩ := (h.receipt_iff hrt.1.1).mpr hrt
    exact ⟨receipt, _, ⟨hrt.1.1, rfl⟩, hr⟩

theorem Evident.inspectEvent_iff (h : Evident m) (request : SourceEventDecisionInspection) :
    (∃ receipt, m.inspectEvent request = .ok (.committed receipt)) ↔
      request.name.Valid ∧ ∃ record, m.events.get request.name.key = some record := by
  simp only [h.inspectEvent_eq, map_eq_ok, eventKeyFor_eq_ok, elim_committed]
  constructor
  · rintro ⟨receipt, _, ⟨hvalid, rfl⟩, hr⟩
    obtain ⟨record, hre, -⟩ := bind_eq_some_iff.mp hr
    exact ⟨hvalid, record, hre⟩
  · rintro ⟨hvalid, record, hre⟩
    obtain ⟨receipt, hr, -⟩ := h.proven request.name record hvalid hre
    exact ⟨receipt, _, ⟨hvalid, rfl⟩, bind_eq_some_iff.mpr ⟨record, hre, hr⟩⟩

/-- In every history: one receipt for each decision and none besides, inspection as long as the
decision is retained and without failures of its own, both limits, and passes that examine each
row once. -/
theorem evidence_is_consistent_and_bounded (host : Host) (options : InMemoryOptions)
    (st : MemoryState) (hstart : st.journal.source = .empty) (calls : List Call) :
    let m := (run host options st calls).journal.source
    (∀ key record, m.events.get key = some record →
      ∃! receiptKey, ∃ receipt, m.receipts.get receiptKey = some receipt ∧ receipt.name.key = key) ∧
    (∀ key receipt, m.receipts.get key = some receipt →
      ∃ record, m.events.get receipt.name.key = some record ∧ record.claimId = receipt.claimId) ∧
    (∀ claim, ((∃ receipt, m.inspect claim = .ok (.committed receipt)) ↔ m.Retains claim) ∧
      ∀ e, m.inspect claim = .error e → claimKey claim = .error e) ∧
    (∀ request, ((∃ receipt, m.inspectEvent request = .ok (.committed receipt)) ↔
        request.name.Valid ∧ ∃ record, m.events.get request.name.key = some record) ∧
      ∀ e, m.inspectEvent request = .error e →
        eventKeyFor request.installationId request.projectionId request.scopeEpoch
          request.streamEpoch request.eventId = .error e) ∧
    m.events.size + m.rates.size ≤ options.sourceRetentionLimit ∧
    m.sequences.size ≤ options.sourceStreamLimit ∧
    ∀ first pass last, reachesEnd host options (run host options st calls) first = true →
      let start := run host options st (calls ++ [first])
      Unended host options start pass →
      reachesEnd host options (run host options start pass) last = true →
      (passRows host options start (pass ++ [last])).Nodup ∧
        ∀ key, Present host options key start (pass ++ [last]) →
          key ∈ passRows host options start (pass ++ [last]) := by
  intro m
  have hevident : Evident m := evident_run (hstart ▸ evident_empty) calls
  obtain ⟨hretention, hstreams⟩ : Bounded options m :=
    bounded_run (hstart ▸ ⟨Nat.zero_le _, Nat.zero_le _⟩) calls
  refine ⟨fun _ _ => hevident.unique_receipt, fun _ _ => hevident.decision_of_receipt,
    fun claim => ⟨hevident.inspect_iff claim, fun e h => ?_⟩,
    fun request => ⟨hevident.inspectEvent_iff request, fun e h => ?_⟩, hretention, hstreams, ?_⟩
  · rw [hevident.inspect_eq] at h
    exact map_eq_error.mp h
  · rw [hevident.inspectEvent_eq] at h
    exact map_eq_error.mp h
  · intro first pass last hfirst start hopen hend
    have hevident' : Evident start.journal.source :=
      evident_run (hstart ▸ evident_empty) (calls ++ [first])
    have hcursor : start.journal.source.cursor = none := by
      have hnone := cursor_of_reachesEnd hfirst
      have hstep : start = (step host options (run host options st calls) first).2 :=
        Machine.run_append _ st calls [first]
      rw [hstep]
      exact hnone
    exact ⟨(sorted_pass hevident' hopen).imp ne_of_lt,
      fun key hpresent => mem_pass hevident' hcursor hopen hend hpresent⟩

/-- A pass of two steps with a commit in between meets the row that was there before it. -/
theorem evidence_is_consistent_and_bounded_pass :
    let start := run plainHost plainOptions .empty
      [.compareInstall inboxDefinition none, .commit (inboxCommit "b" 1 none) 0 quiet,
        .maintain 0 9]
    (inboxClaim "b" 1 none).name.key ∈ passRows plainHost plainOptions start
      ([.maintain 0 1, .commit (inboxCommit "a" 2 none) 0 quiet] ++ [.maintain 0 9]) := by
  have h := evidence_is_consistent_and_bounded plainHost plainOptions .empty rfl
    [.compareInstall inboxDefinition none, .commit (inboxCommit "b" 1 none) 0 quiet]
  refine (h.2.2.2.2.2.2 (.maintain 0 9)
    [.maintain 0 1, .commit (inboxCommit "a" 2 none) 0 quiet] (.maintain 0 9)
    (by decide +kernel) ⟨by decide +kernel, by decide +kernel, trivial⟩ (by decide +kernel)).2 _ ?_
  exact ⟨.inl (isSome_iff_exists.mp (by decide +kernel)),
    .inl (isSome_iff_exists.mp (by decide +kernel)),
    .inl (isSome_iff_exists.mp (by decide +kernel)), trivial⟩

end Xolotl.Source
