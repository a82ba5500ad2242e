import Xolotl.Source.Ledger
import Xolotl.Source.Pass

/-! Ingestion as a whole: what reaches the sinks, and that refused calls change nothing. -/

namespace Xolotl.Source

open Xolotl.Types Xolotl.State Word List

variable {host : Host} {options : InMemoryOptions} {st st' : MemoryState} {m : SourceMemory}

/-! ## Sinks -/

/-- The items a sink holds; a path without a value is an empty sink, another value is none. -/
def sinkItems (values : OrderedMap Path CurrentRecord) (path : Path) : Option (List Value) :=
  match (values.get path).bind CurrentRecord.value with
  | none => some []
  | some value => asList value

/-- An accepted commit appends its payload to its sink, after items at the front left if the
policy is to drop the oldest, and touches no other path. -/
structure Delivers (request : SourceCommit) (values values' : OrderedMap Path CurrentRecord) :
    Prop where
  appended : ∃ items removed, sinkItems values request.sink = some items ∧
    removed ≤ items.length ∧
    sinkItems values' request.sink = some (items.drop removed ++ [request.payload]) ∧
    (request.capacity.onOverflow ≠ .dropOldest → removed = 0)
  others : ∀ path, path ≠ request.sink → values'.get path = values.get path

variable {items : List Value} {item : Value} {taint : TaintSet} {path : Path}
  {stored : TaintedValue} {call : Call}

theorem pushItem_ok {items' : List Value}
    (h : pushItem items item taint = .ok items') : items' = items ++ [item] := by
  unfold pushItem at h
  split at h
  next => cases h
  next => exact (Except.ok.inj h).symm

variable {current : Option Value} {request : SourceCommit} {prepared : Prepared}
  {decisionAtMs : Int} {log : List Acceptance} {key : Bytes} {calls : List Call}

theorem appendObservedValue_ok (h : appendObservedValue path current item taint = .ok stored) :
    ∃ items, (match current with | none => some [] | some value => asList value) = some items ∧
      stored = ⟨.list (items ++ [item]), taint⟩ := by
  unfold appendObservedValue at h
  cases current with
  | none =>
    dsimp only at h
    split at h
    next => cases h
    next items hp =>
      cases h
      exact ⟨[], rfl, by rw [pushItem_ok hp]⟩
  | some value =>
    dsimp only at h
    cases hl : asList value with
    | none =>
      rw [hl] at h
      cases h
    | some items =>
      simp only [hl] at h
      split at h
      next => cases h
      next pushed hp =>
        cases h
        exact ⟨items, hl, by rw [pushItem_ok hp]⟩

theorem dropPrefixAppendObservedValue_ok {removed : Nat}
    (h : dropPrefixAppendObservedValue path current removed item taint = .ok stored) :
    ∃ items, current.bind asList = some items ∧ removed ≤ items.length ∧
      stored = ⟨.list (items.drop removed ++ [item]), taint⟩ := by
  unfold dropPrefixAppendObservedValue at h
  split at h
  next => cases h
  next items hi =>
    split at h
    next => cases h
    next hl =>
      split at h
      next => cases h
      next pushed hp =>
        cases h
        exact ⟨items, hi, not_lt.mp hl, by rw [pushItem_ok hp]⟩

theorem nextSink_ok {values : OrderedMap Path CurrentRecord} {count : Nat} {replace : Bool}
    {event : StateEvent} (ho : checkOverflow request prepared count = .ok replace)
    (h : nextSink values request prepared count replace = .ok (stored, event)) :
    ∃ items removed, sinkItems values request.sink = some items ∧ removed ≤ items.length ∧
      stored.value = .list (items.drop removed ++ [request.payload]) ∧
      (request.capacity.onOverflow ≠ .dropOldest → removed = 0) := by
  unfold nextSink at h
  have hi : sinkItems values request.sink =
      match currentValue values request with | none => some [] | some value => asList value := rfl
  cases replace with
  | true =>
    simp only [if_true] at h
    split at h
    next => cases h
    next stored' hs =>
      cases h
      obtain ⟨items, hc, hr, rfl⟩ := dropPrefixAppendObservedValue_ok hs
      obtain ⟨value, hv, hl⟩ := Option.bind_eq_some_iff.mp hc
      refine ⟨items, _, by rw [hi, hv]; exact hl, hr, rfl, fun hp => ?_⟩
      unfold checkOverflow at ho
      split at ho
      next hd => exact absurd hd hp
      next => split at ho <;> cases ho
      next => split at ho <;> cases ho
  | false =>
    simp only [Bool.false_eq_true, if_false] at h
    split at h
    next => cases h
    next stored' hs =>
      cases h
      obtain ⟨items, hc, rfl⟩ := appendObservedValue_ok hs
      exact ⟨items, 0, hi.trans hc, Nat.zero_le _, rfl, fun _ => rfl⟩

theorem Accepts.delivers {sample : Sample} {admission : Admission}
    (h : Accepts options st request decisionAtMs sample prepared admission st') :
    Delivers request st.values st'.values := by
  obtain ⟨count, replace, -, ho, hs⟩ := h.admits.sink
  obtain ⟨items, removed, hi, hr, hst, hpo⟩ := nextSink_ok ho hs
  refine ⟨⟨items, removed, hi, hr, ?_, hpo⟩, fun path hp => ?_⟩
  · rw [sinkItems, h.values, OrderedMap.get_insert_self]
    simp only [Option.bind_some, CurrentRecord.value, hst]
    rfl
  · rw [h.values, OrderedMap.get_insert_of_ne _ _ hp.symm]

/-! ## Steps -/

def Call.isSource : Call → Bool
  | .write _ _ => false
  | _ => true

theorem step_values (host : Host) (options : InMemoryOptions) (st : MemoryState)
    (hc : call.isSource = true) :
    (acceptance host options st call = [] ∧ (step host options st call).2.values = st.values) ∨
      ∃ request decisionAtMs, acceptance host options st call = [⟨request, decisionAtMs⟩] ∧
        Delivers request st.values (step host options st call).2.values := by
  cases call with
  | commit request decisionAtMs sample =>
    rcases h : commitSource host options st request decisionAtMs sample with ⟨verdict, st'⟩
    simp only [step, acceptance, h]
    rcases commitSource_cases h with ⟨hv, hva, -⟩ | ⟨hv, prepared, admission, ha⟩
    · exact .inl ⟨if_neg hv, hva⟩
    · exact .inr ⟨request, decisionAtMs, if_pos hv, ha.delivers⟩
  | write values journal => cases hc
  | _ => exact .inl ⟨rfl, rfl⟩

def payloadsTo (path : Path) (log : List Acceptance) : List Value :=
  (log.filter fun a => a.request.sink = path).map fun a => a.request.payload

structure Delivered (path : Path) (items : List Value) (log : List Acceptance)
    (values : OrderedMap Path CurrentRecord) : Prop where
  holds : ∃ removed, removed ≤ (items ++ payloadsTo path log).length ∧
    sinkItems values path = some ((items ++ payloadsTo path log).drop removed) ∧
    ((∀ a ∈ log, a.request.sink = path → a.request.capacity.onOverflow ≠ .dropOldest) → removed = 0)

theorem payloadsTo_append (path : Path) (log new : List Acceptance) :
    payloadsTo path (log ++ new) = payloadsTo path log ++ payloadsTo path new := by
  rw [payloadsTo, filter_append, map_append, payloadsTo, payloadsTo]

theorem delivered_step (hc : call.isSource = true) (h : Delivered path items log st.values) :
    Delivered path items (log ++ acceptance host options st call)
      (step host options st call).2.values := by
  obtain ⟨removed, hr, hi, hpo⟩ := h.holds
  rcases step_values host options st hc with ⟨hn, hv⟩ | ⟨request, decisionAtMs, hne, hd⟩
  · rw [hn, append_nil, hv]
    exact h
  · rw [hne]
    by_cases hs : request.sink = path
    · subst hs
      obtain ⟨held, dropped, hh, hdr, ha, hk⟩ := hd.appended
      cases hi.symm.trans hh
      have hp : payloadsTo request.sink (log ++ [⟨request, decisionAtMs⟩]) =
          payloadsTo request.sink log ++ [request.payload] := by
        simp [payloadsTo]
      rw [length_drop] at hdr
      rw [drop_drop] at ha
      have ht : removed + dropped ≤ (items ++ payloadsTo request.sink log).length := by omega
      refine ⟨removed + dropped, ?_, ?_, fun hl => ?_⟩
      · rw [hp, ← append_assoc, length_append]
        exact ht.trans (Nat.le_add_right _ _)
      · rw [hp, ← append_assoc, drop_append_of_le_length ht]
        exact ha
      · obtain ⟨hold, hlast⟩ := forall_mem_append.mp hl
        rw [hpo hold, hk (hlast _ mem_cons_self rfl)]
    · have hp : payloadsTo path (log ++ [⟨request, decisionAtMs⟩]) = payloadsTo path log := by
        simp [payloadsTo, hs]
      refine ⟨removed, hp.symm ▸ hr, ?_, fun hl => ?_⟩
      · rw [hp, ← hi, sinkItems, sinkItems, hd.others path (Ne.symm hs)]
      · exact hpo (forall_mem_append.mp hl).1

variable (host options) in
theorem undelivered_step (hc : call.isSource = true) (ho : sinkItems st.values path = none)
    (hl : payloadsTo path log = []) :
    (step host options st call).2.values.get path = st.values.get path ∧
      payloadsTo path (log ++ acceptance host options st call) = [] := by
  rcases step_values host options st hc with ⟨hn, hv⟩ | ⟨request, decisionAtMs, hne, hd⟩
  · rw [hn, append_nil, hv]
    exact ⟨rfl, hl⟩
  · have hs : request.sink ≠ path := by
      rintro rfl
      obtain ⟨items, -, hi, -⟩ := hd.appended
      rw [ho] at hi
      cases hi
    rw [hne, payloadsTo_append, hl]
    exact ⟨hd.others path hs.symm, by simp [payloadsTo, hs]⟩

/-! ## Refusals -/

theorem Evident.readable (h : Evident m) (hr : m.HasRow key) :
    (key.head? = some kindEvent ∨ key.head? = some kindRate ∨ key.head? = some kindStream) ∧
      ∃ scope, parseSourceScope key = .ok scope := by
  rcases hr with ⟨record, hg⟩ | ⟨record, hg⟩ | ⟨row, hg⟩
  · obtain ⟨name, hvalid, rfl⟩ := h.events key record hg
    exact ⟨.inl rfl, _, parseSourceScope_event hvalid⟩
  · obtain ⟨scope, hn, hep, rfl⟩ := h.rates key record hg
    exact ⟨.inr (.inl rfl), _, parseSourceScope_rate hn hep⟩
  · obtain ⟨name, hn, hep, rfl⟩ := h.streams key row hg
    exact ⟨.inr (.inr rfl), _, parseSourceScope_stream hn hep⟩

theorem sweepRow_ok (decisionAtMs : Int)
    (hk : key.head? = some kindEvent ∨ key.head? = some kindRate ∨ key.head? = some kindStream)
    (hp : ∃ scope, parseSourceScope key = .ok scope) (m : SourceMemory) :
    ∃ gone m', SourceMemory.sweepRow decisionAtMs m key = (.ok gone, m') := by
  obtain ⟨⟨installation, projection, epoch⟩, hp⟩ := hp
  unfold SourceMemory.sweepRow
  split
  next =>
    split
    next => exact ⟨_, _, rfl⟩
    next => split <;> exact ⟨_, _, rfl⟩
  next hev =>
    split
    next =>
      split
      next => exact ⟨_, _, rfl⟩
      next => split <;> exact ⟨_, _, rfl⟩
    next hr =>
      have hs : key.head? = some kindStream := (hk.resolve_left hev).resolve_left hr
      simp only [if_pos hs, hp]
      split <;> exact ⟨_, _, rfl⟩

theorem sweep_ok (decisionAtMs : Int) {keys : List Bytes} (hke : ∀ key ∈ keys,
      (key.head? = some kindEvent ∨ key.head? = some kindRate ∨ key.head? = some kindStream) ∧
        ∃ scope, parseSourceScope key = .ok scope) (removed : Nat) (m : SourceMemory) :
    ∃ count m', SourceMemory.sweep decisionAtMs keys removed m = (.ok count, m') := by
  induction keys generalizing removed m with
  | nil => exact ⟨removed, m, rfl⟩
  | cons key keys ih =>
    obtain ⟨⟨hk, hp⟩, hr⟩ := forall_mem_cons.mp hke
    obtain ⟨gone, m', hro⟩ := sweepRow_ok decisionAtMs hk hp m
    unfold SourceMemory.sweep
    simp only [hro]
    exact ih hr _ _

theorem Evident.maintain_error (h : Evident m) {limit : Nat} {e : SourceStoreError}
    {m' : SourceMemory} (hm : m.maintain decisionAtMs limit = (.error e, m')) : m' = m := by
  unfold SourceMemory.maintain at hm
  split at hm
  next =>
    cases hm
    rfl
  next =>
    dsimp only at hm
    split at hm
    next =>
      cases hm
      rfl
    next floors _ =>
      have hk := fun key (hke : key ∈ (m.rowsAfter m.cursor).take limit) =>
        h.readable (h.mem_rowsAfter.mp (mem_of_mem_take hke)).1
      obtain ⟨count, m₁, hs⟩ := sweep_ok decisionAtMs hk 0
        { m with decisionTimeFloors := m.decisionTimeFloors.insertAll floors }
      rw [hs] at hm
      cases hm

theorem refused_unchanged (he : Evident st.journal.source)
    (h : (step host options st call).1.refused = true) :
    (step host options st call).2.values = st.values ∧
      (step host options st call).2.journal = st.journal := by
  by_cases hca : ∃ decisionAtMs limit, call = .maintain decisionAtMs limit
  · obtain ⟨decisionAtMs, limit, rfl⟩ := hca
    rcases hc : st.journal.source.maintain decisionAtMs limit with ⟨answer, m'⟩
    simp only [step, hc] at h ⊢
    cases answer with
    | error e =>
      rw [he.maintain_error hc]
      exact ⟨rfl, rfl⟩
    | ok result => cases h
  · exact ((step_spec host options st call).2 fun t limit heq => hca ⟨t, limit, heq⟩).2 h

/-! ## Whole histories -/

theorem delivered_run (hc : ∀ call ∈ calls, call.isSource = true)
    (hi : sinkItems st.values path = some items) :
    Delivered path items (accepted host options st calls) (run host options st calls).values := by
  refine Machine.collect_invariant_along (l := [])
    (I := fun log (st : MemoryState) => Delivered path items log st.values)
    (P := fun _ call => call.isSource = true) (fun _ _ _ hca h => delivered_step hca h) ?_ calls
    (Machine.along_of_forall _ st hc)
  exact ⟨0, Nat.zero_le _, by simpa [payloadsTo] using hi, fun _ => rfl⟩

theorem undelivered_run
    (hc : ∀ call ∈ calls, call.isSource = true) (ho : sinkItems st.values path = none) :
    (run host options st calls).values.get path = st.values.get path ∧
      payloadsTo path (accepted host options st calls) = [] := by
  refine Machine.collect_invariant_along (l := [])
    (I := fun log (st' : MemoryState) =>
      st'.values.get path = st.values.get path ∧ payloadsTo path log = [])
    (P := fun _ call => call.isSource = true) ?_ ⟨rfl, rfl⟩ calls
    (Machine.along_of_forall _ st hc)
  rintro log st' call hca ⟨hs, hl⟩
  have ho' : sinkItems st'.values path = none := by
    rw [sinkItems, hs]
    exact ho
  obtain ⟨hst, hn⟩ := undelivered_step host options hca ho' hl
  exact ⟨hst.trans hs, hn⟩

/-- In every history: the sequence numbers of an incarnation count up from one, an event is
accepted again only behind the expiry of its earlier acceptances, each acceptance puts its
payload at the end of its sink behind what is left there, no other call changes a value, so that
a sink holds the end of what it held and was sent, and refused calls change nothing. -/
theorem ingestion_is_ordered_and_at_most_once (host : Host) (options : InMemoryOptions)
    (st : MemoryState) (hstart : st.journal.source = .empty) (calls : List Call) :
    let log := accepted host options st calls
    let final := run host options st calls
    (∀ epoch, ∃ n, seqsIn epoch log = List.range' 1 n) ∧
    (log.Pairwise fun a b => a.name = b.name → a.expiresAtMs < b.decisionAtMs) ∧
    ((∀ call ∈ calls, call.isSource = true) → ∀ path,
      (∀ items, sinkItems st.values path = some items →
        ∃ removed, removed ≤ (items ++ payloadsTo path log).length ∧
          sinkItems final.values path = some ((items ++ payloadsTo path log).drop removed) ∧
          ((∀ a ∈ log, a.request.sink = path → a.request.capacity.onOverflow ≠ .dropOldest) →
            removed = 0)) ∧
      (sinkItems st.values path = none →
        final.values.get path = st.values.get path ∧ payloadsTo path log = [])) ∧
    (∀ call, call.isSource = true →
      (acceptance host options final call = [] ∧
        (step host options final call).2.values = final.values) ∨
      ∃ request decisionAtMs, acceptance host options final call = [⟨request, decisionAtMs⟩] ∧
        Delivers request final.values (step host options final call).2.values) ∧
    ∀ call, (step host options final call).1.refused = true →
      (step host options final call).2.values = final.values ∧
        (step host options final call).2.journal = final.journal := by
  intro log final
  obtain ⟨-, hlogged, hnumbered⟩ := logged_run host options hstart calls
  refine ⟨fun epoch => ⟨_, hnumbered.counted epoch⟩, hlogged.once, fun hcalls path => ⟨?_, ?_⟩,
    fun call => step_values host options final, ?_⟩
  · exact fun items hitems => (delivered_run hcalls hitems).holds
  · exact undelivered_run hcalls
  · exact fun call => refused_unchanged (evident_run (hstart ▸ evident_empty) calls)

/-- Two numbered commits into a sink of one: both are delivered, and the second is what is left
when the first leaves at the front. -/
theorem ingestion_is_ordered_and_at_most_once_stream :
    let first := { inboxCommit "a" 1 (some ⟨"s", 3, 1⟩) with payload := .int 10 }
    let second := { inboxCommit "b" 2 (some ⟨"s", 3, 2⟩) with payload := .int 20 }
    let calls : List Call := [.compareInstall inboxDefinition none,
      .openStream ⟨⟨"i", "p", 2, "s"⟩, "o", 0⟩, .commit first 0 quiet]
    let st := run plainHost plainOptions .empty calls
    let next := step plainHost plainOptions st (.commit second 1 quiet)
    seqsIn 3 (accepted plainHost plainOptions .empty calls) = [1] ∧
      sinkItems st.values inboxPath = some [.int 10] ∧
      Delivers second st.values next.2.values ∧
      sinkItems next.2.values inboxPath = some [.int 20] := by
  intro first second calls st next
  obtain ⟨-, -, -, hsteps, -⟩ :=
    ingestion_is_ordered_and_at_most_once plainHost plainOptions .empty rfl calls
  refine ⟨by decide +kernel, by decide +kernel, ?_, by decide +kernel⟩
  have haccepted : acceptance plainHost plainOptions st (.commit second 1 quiet) =
      [⟨second, 1⟩] := if_pos (by decide +kernel)
  rcases hsteps (.commit second 1 quiet) rfl with ⟨hnone, -⟩ | ⟨request, decisionAtMs, hone, hd⟩
  · cases haccepted.symm.trans hnone
  · cases haccepted.symm.trans hone
    exact hd

end Xolotl.Source
