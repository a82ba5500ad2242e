import Xolotl.Gateway.Record
import Xolotl.Lib.Machine
import Xolotl.Lib.Table

/-! The in-memory store of request evidence: its calls, the accounting of its rows, and that every
request is admitted at most once. -/

namespace Xolotl.Gateway

open Xolotl.Types Fallible List Option Table

structure GatewayIdempotencyUsage where
  records : Nat
  bytes : Nat

structure MemoryState where
  records : Table Text GatewayIdempotencyRecord
  usage : GatewayIdempotencyUsage
  retryEpoch : Nat

def MemoryState.empty : MemoryState := ⟨∅, ⟨0, 0⟩, 0⟩

structure MemoryGatewayIdempotencyStore where
  codec : Codec
  limits : GatewayIdempotencyLimits
  valid : limits.validate = .ok ()

inductive Call
  | reserve (key : Text) (pending : TaintedValue)
  | complete (key : Text) (expected : Value) (result : TaintedValue)
  | release (key : Text) (expected : Value)
  | retire (key : Text) (expected : Value)
  | observe (key : Text)
  | closeRetryEpoch (expected : Nat)

inductive Answer
  | reserved (replay : Option TaintedValue)
  | settled
  | observed (row : Option TaintedValue)
  | closed (epoch : Nat)
  deriving DecidableEq

namespace MemoryState

variable (state : MemoryState)

def admitRow (key : Text) (row : GatewayIdempotencyRecord) : MemoryState :=
  { state with
    records := state.records.set key row
    usage := ⟨state.usage.records + 1, state.usage.bytes + row.chargedBytes⟩ }

def replaceRow (key : Text) (row : GatewayIdempotencyRecord) (bytes : Nat) : MemoryState :=
  { state with records := state.records.set key row, usage := ⟨state.usage.records, bytes⟩ }

def removeRow (key : Text) : MemoryState :=
  match state.records.get key with
  | none => state
  | some record =>
    { state with
      records := state.records.remove key
      usage := ⟨state.usage.records - 1, state.usage.bytes - record.chargedBytes⟩ }

end MemoryState

namespace MemoryGatewayIdempotencyStore

variable (store : MemoryGatewayIdempotencyStore) (state : MemoryState)

def withinBytes (bytes : Option Nat) : Option Nat := bytes.filter (· ≤ store.limits.maxBytes)

variable (key : Text)

def reserve (pending : TaintedValue) : Result (Answer × MemoryState) := do
  validateKey key
  let identityEpoch ← retryEpoch pending.value
  let row : Result GatewayIdempotencyRecord := do
    let record ← Gateway.pending store.codec pending store.limits
    record.validateBinding key
    return record
  match state.records.get key with
  | some current => do
    check (identityEpoch = current.metadata.retryEpoch)
      (.rejected "idempotency retry epoch binding mismatch")
    let observed ← current.observe store.codec
    return (.reserved (some observed), state)
  | none => do
    check (identityEpoch = state.retryEpoch) (.rejected "idempotency retry epoch is not open")
    let row ← row
    let bytes := store.withinBytes (checkedAdd state.usage.bytes row.chargedBytes)
    check (state.usage.records < store.limits.maxRecords ∧ bytes.isSome = true)
      (.limitExceeded "idempotency storage capacity exhausted")
    return (.reserved none, state.admitRow key row)

def replace (expected : Value)
    (replacement : GatewayIdempotencyRecord → TaintedValue → Result GatewayIdempotencyRecord) :
    Result (Answer × MemoryState) := do
  validateKey key
  let current ← ofOption (state.records.get key)
    (.indeterminate "idempotency record missing during settlement")
  let observed ← current.observe store.codec
  check (observed.value = expected) (.indeterminate "idempotency record changed during settlement")
  let row ← replacement current observed
  row.validateBinding key
  row.validateReplacement store.codec expected
  let without := if current.chargedBytes ≤ state.usage.bytes
    then some (state.usage.bytes - current.chargedBytes) else none
  let bytes ← ofOption (store.withinBytes (without.bind (checkedAdd · row.chargedBytes)))
    (.indeterminate "idempotency storage accounting invalid")
  return (.settled, state.replaceRow key row bytes)

def complete (expected : Value) (result : TaintedValue) : Result (Answer × MemoryState) :=
  store.replace state key expected fun _ observed => do
    requireState observed.value "pending"
    completed store.codec ⟨result.value, result.taint.union observed.taint⟩ store.limits

def retire (expected : Value) : Result (Answer × MemoryState) :=
  store.replace state key expected fun current _ => current.retired store.codec store.limits

def release (key : Text) (expected : Value) : Result (Answer × MemoryState) := do
  validateKey key
  let current ← ofOption (state.records.get key)
    (.indeterminate "idempotency reservation missing during release")
  let observed ← current.observe store.codec
  check (observed.value = expected)
    (.indeterminate "idempotency reservation changed before release")
  requireState observed.value "pending"
  check (current.chargedBytes ≤ state.usage.bytes)
    (.indeterminate "invalid idempotency release accounting")
  return (.settled, state.removeRow key)

def observe (key : Text) : Result (Answer × MemoryState) := do
  validateKey key
  match state.records.get key with
  | none => return (.observed none, state)
  | some current =>
    let observed ← current.observe store.codec
    return (.observed (some observed), state)

def reclaimableKeys (next : Nat) : List (Text × GatewayIdempotencyRecord) → Result (List Text)
  | [] => .ok []
  | (key, record) :: rows => do
    let reclaim ← record.reclaimable store.codec next
    let keys ← reclaimableKeys next rows
    return if reclaim then key :: keys else keys

def closeRetryEpoch (expected : Nat) : Result (Answer × MemoryState) := do
  check (state.retryEpoch = expected) (.rejected "idempotency epoch changed before closure")
  let next ← ofOption (checkedAdd expected 1) (.rejected "idempotency epoch exhausted")
  let removed ← store.reclaimableKeys next state.records.rows
  return (.closed next, removed.foldl MemoryState.removeRow { state with retryEpoch := next })

def perform : Call → Result (Answer × MemoryState)
  | .reserve key pending => store.reserve state key pending
  | .complete key expected result => store.complete state key expected result
  | .release key expected => store.release state key expected
  | .retire key expected => store.retire state key expected
  | .observe key => store.observe state key
  | .closeRetryEpoch expected => store.closeRetryEpoch state expected

/-- A call that fails leaves the state as it was. -/
def step (call : Call) : Result Answer × MemoryState :=
  match store.perform state call with
  | .error e => (.error e, state)
  | .ok (answer, state') => (.ok answer, state')

def after (calls : List Call) : MemoryState := Machine.run store.step .empty calls

end MemoryGatewayIdempotencyStore

/-! ## Removing rows -/

section Remove

variable {state : MemoryState} {key other : Text} {record : GatewayIdempotencyRecord}

theorem get_removeRow : (state.removeRow key).records.get other =
    if other = key then none else state.records.get other := by
  unfold MemoryState.removeRow
  split
  next hn =>
    split
    next heq => rw [heq, hn]
    next => rfl
  next => exact get_remove _ _ _

theorem get_removeRows (keys : List Text) :
    (keys.foldl MemoryState.removeRow state).records.get other =
    if other ∈ keys then none else state.records.get other := by
  induction keys generalizing state with
  | nil => rfl
  | cons key keys ih =>
    rw [foldl_cons, ih, get_removeRow]
    by_cases heq : other = key <;> by_cases hm : other ∈ keys <;> simp [hm]

end Remove

/-! ## The rows of a run -/

variable {store : MemoryGatewayIdempotencyStore} {state state' : MemoryState} {call : Call}
  {answer : Answer} {key : Text} {record row : GatewayIdempotencyRecord}

/-- A row is the encoding of a value, and reserves its largest size while it is pending. -/
def MemoryGatewayIdempotencyStore.Written (store : MemoryGatewayIdempotencyStore)
    (record : GatewayIdempotencyRecord) : Prop :=
  ∃ value reserved, Encodes store.codec store.limits value reserved record ∧
    (strField value "state" = some ("pending" : Text) → reserved = true)

structure MemoryGatewayIdempotencyStore.Accounted (store : MemoryGatewayIdempotencyStore)
    (state : MemoryState) : Prop where
  written : ∀ key record, state.records.get key = some record → store.Written record
  records_eq : state.usage.records = state.records.size
  records_le : state.usage.records ≤ store.limits.maxRecords
  bytes_eq : state.usage.bytes = state.records.total GatewayIdempotencyRecord.chargedBytes
  bytes_le : state.usage.bytes ≤ store.limits.maxBytes
  bytes_word : state.usage.bytes ≤ Word.u64Max

namespace MemoryGatewayIdempotencyStore

variable (store : MemoryGatewayIdempotencyStore) (state : MemoryState) in
inductive Turn : Call → Answer → MemoryState → Prop
  | replay {key pending observed} : Turn (.reserve key pending) (.reserved (some observed)) state
  | observe {key observed} : Turn (.observe key) (.observed observed) state
  | grant {key pending row} (hnew : state.records.get key = none)
      (hepoch : retryEpoch pending.value = .ok state.retryEpoch) (hwritten : store.Written row)
      (hrecords : state.usage.records < store.limits.maxRecords)
      (hbytes : state.usage.bytes + row.chargedBytes ≤ store.limits.maxBytes)
      (hword : state.usage.bytes + row.chargedBytes ≤ Word.u64Max) :
      Turn (.reserve key pending) (.reserved none) (state.admitRow key row)
  | settle {call key record row bytes} (hget : state.records.get key = some record)
      (hwritten : store.Written row)
      (hfingerprint : row.metadata.fingerprint = record.metadata.fingerprint)
      (hbytes : bytes + record.chargedBytes = state.usage.bytes + row.chargedBytes)
      (hmax : bytes ≤ store.limits.maxBytes) (hword : bytes ≤ Word.u64Max) :
      Turn call .settled (state.replaceRow key row bytes)
  | release {key expected record} {observed : TaintedValue}
      (hget : state.records.get key = some record)
      (hobserve : record.observe store.codec = .ok observed)
      (hpending : strField observed.value "state" = some ("pending" : Text)) :
      Turn (.release key expected) .settled (state.removeRow key)
  | close {expected next} {keys : List Text}
      (hkeys : ∀ key ∈ keys, ∃ record, state.records.get key = some record ∧
        record.reclaimable store.codec next = .ok true) :
      Turn (.closeRetryEpoch expected) (.closed next)
        (keys.foldl MemoryState.removeRow { state with retryEpoch := next })

theorem withinBytes_eq_some {x : Option Nat} {bytes : Nat} :
    store.withinBytes x = some bytes ↔ x = some bytes ∧ bytes ≤ store.limits.maxBytes := by
  rw [withinBytes, filter_eq_some_iff, decide_eq_true_eq]

theorem written_of_completed {value : TaintedValue}
    (h : completed store.codec value store.limits = .ok row) : store.Written row := by
  obtain ⟨-, -, h⟩ := bind_ok.mp h
  obtain ⟨_, hst, h⟩ := bind_ok.mp h
  refine ⟨value.value, false, encodes_of_encode store.valid h, fun hp => ?_⟩
  rw [strField_of_requireState hst] at hp
  exact absurd hp (by decide)

theorem written_of_retired (h : record.retired store.codec store.limits = .ok row) :
    store.Written row := by
  obtain ⟨_, -, h⟩ := bind_ok.mp h
  obtain ⟨_, -, h⟩ := bind_ok.mp h
  obtain ⟨fields, -, h⟩ := bind_ok.mp h
  refine ⟨_, false, encodes_of_encode store.valid h, fun hp => ?_⟩
  rw [strField_retiredValue] at hp
  exact absurd hp (by decide)

theorem fingerprint_of_replacement (hw : store.Written record) {observed : TaintedValue}
    (ho : record.observe store.codec = .ok observed)
    (h : row.validateReplacement store.codec observed.value = .ok ()) :
    row.metadata.fingerprint = record.metadata.fingerprint := by
  obtain ⟨value, reserved, he, -⟩ := hw
  obtain ⟨metadata, hm, hc⟩ := bind_ok.mp h
  rw [he.faithful _ ho, he.metadata] at hm
  cases hm
  exact check_ok.mp hc

theorem turn_of_replace (hst : store.Accounted state) {expected : Value}
    {replacement : GatewayIdempotencyRecord → TaintedValue → Result GatewayIdempotencyRecord}
    (hr : ∀ record observed row, replacement record observed = .ok row → store.Written row)
    (h : store.replace state key expected replacement = .ok (answer, state')) :
    Turn store state call answer state' := by
  simp only [replace, bind_ok, ofOption_ok, check_ok, withinBytes_eq_some] at h
  obtain ⟨-, -, record, hg, observed, ho, -, rfl, row, hro, -, -, _, hvalid, bytes,
    ⟨hbs, hm⟩, h⟩ := h
  cases h
  obtain ⟨without, hwi, hs⟩ := bind_eq_some_iff.mp hbs
  obtain ⟨hle, rfl⟩ := (ite_none_right_eq_some.trans (and_congr_right fun _ => some_inj)).mp hwi
  obtain ⟨hw, rfl⟩ := checkedAdd_eq_some.mp hs
  refine .settle hg (hr _ _ _ hro)
    (fingerprint_of_replacement (hst.written _ _ hg) ho hvalid) ?_ hm hw
  omega

theorem mem_reclaimableKeys {next : Nat} {rows : List (Text × GatewayIdempotencyRecord)}
    {keys : List Text} (h : store.reclaimableKeys next rows = .ok keys) (hk : key ∈ keys) :
    ∃ record, (key, record) ∈ rows ∧ record.reclaimable store.codec next = .ok true := by
  induction rows generalizing keys with
  | nil =>
    cases h
    cases hk
  | cons entry rows ih =>
    obtain ⟨name, record⟩ := entry
    rw [reclaimableKeys] at h
    simp only [bind_ok] at h
    obtain ⟨reclaim, hrc, rest, hr, h⟩ := h
    cases h
    cases reclaim with
    | false =>
      obtain ⟨record', hm, h⟩ := ih hr hk
      exact ⟨record', mem_cons_of_mem _ hm, h⟩
    | true =>
      rcases mem_cons.mp hk with rfl | hk
      · exact ⟨record, mem_cons_self, hrc⟩
      · obtain ⟨record', hm, h⟩ := ih hr hk
        exact ⟨record', mem_cons_of_mem _ hm, h⟩

theorem perform_turn (hst : store.Accounted state)
    (h : store.perform state call = .ok (answer, state')) :
    Turn store state call answer state' := by
  cases call with
  | reserve key pending =>
    obtain ⟨_, -, h⟩ := bind_ok.mp h
    obtain ⟨epoch, hep, h⟩ := bind_ok.mp h
    cases hg : state.records.get key with
    | some current =>
      simp only [hg, bind_ok] at h
      obtain ⟨-, -, observed, -, h⟩ := h
      cases h
      exact .replay
    | none =>
      simp only [hg, bind_ok, check_ok, isSome_iff_exists, withinBytes_eq_some,
        checkedAdd_eq_some] at h
      obtain ⟨-, rfl, row, ⟨record, hp, -, -, hro⟩, -, ⟨hre, bytes, ⟨hw, rfl⟩, hma⟩, h⟩ := h
      cases hro
      cases h
      obtain ⟨_, -, he⟩ := bind_ok.mp hp
      obtain ⟨_, -, he⟩ := bind_ok.mp he
      exact .grant hg hep ⟨_, true, encodes_of_encode store.valid he, fun _ => rfl⟩ hre hma
        hw
  | complete key expected result =>
    refine turn_of_replace hst (fun _ _ _ hro => ?_) h
    obtain ⟨_, -, hro⟩ := bind_ok.mp hro
    exact written_of_completed hro
  | retire key expected => exact turn_of_replace hst (fun _ _ _ hro => written_of_retired hro) h
  | release key expected =>
    simp only [perform, release, bind_ok, ofOption_ok] at h
    obtain ⟨-, -, record, hg, observed, ho, -, -, _, hp, -, -, h⟩ := h
    cases h
    exact .release hg ho (strField_of_requireState hp)
  | observe key =>
    obtain ⟨_, -, h⟩ := bind_ok.mp h
    cases hg : state.records.get key with
    | none =>
      rw [hg] at h
      cases h
      exact .observe
    | some current =>
      rw [hg] at h
      obtain ⟨_, -, h⟩ := bind_ok.mp h
      cases h
      exact .observe
  | closeRetryEpoch expected =>
    simp only [perform, closeRetryEpoch, bind_ok, ofOption_ok, check_ok, checkedAdd_eq_some] at h
    obtain ⟨-, rfl, next, ⟨-, rfl⟩, keys, hk, h⟩ := h
    cases h
    refine .close fun key hke => ?_
    obtain ⟨record, hm, hr⟩ := mem_reclaimableKeys hk hke
    exact ⟨record, mem_rows.mp hm, hr⟩

/-! ## Accounting -/

section

variable (hst : store.Accounted state)
include hst

namespace Accounted

theorem removeRow (key : Text) : store.Accounted (state.removeRow key) := by
  have hw : ∀ other record, (state.removeRow key).records.get other = some record →
      store.Written record := by
    intro other record hg
    rw [get_removeRow, ite_none_left_eq_some] at hg
    exact hst.written other record hg.2
  revert hw
  unfold MemoryState.removeRow
  cases hg : state.records.get key with
  | none => exact fun _ => hst
  | some record =>
    intro hw
    have hs : (state.records.remove key).size + (if state.records.contains key then 1 else 0) =
        state.records.size := size_remove
    have ht := total_remove GatewayIdempotencyRecord.chargedBytes hg
    rw [Table.contains, hg, isSome_some, if_pos rfl, ← hst.records_eq] at hs
    rw [← hst.bytes_eq] at ht
    have hr := hst.records_le
    have hbs := hst.bytes_le
    have hwo := hst.bytes_word
    constructor
    case written => exact hw
    all_goals
      dsimp only
      omega

theorem written_set (hw : store.Written row) (other : Text)
    (record : GatewayIdempotencyRecord) (hg : (state.records.set key row).get other = some record) :
    store.Written record := by
  rw [get_set] at hg
  split at hg
  · cases hg
    exact hw
  · exact hst.written other record hg

theorem turn (h : Turn store state call answer state') :
    store.Accounted state' := by
  cases h with
  | replay | observe => exact hst
  | @grant key pending row hn hep hwr hr hbs hw =>
    refine ⟨hst.written_set hwr, ?_, hr, ?_, hbs, hw⟩
    · exact (congrArg (· + 1) hst.records_eq).trans (size_set_new row hn).symm
    · exact (congrArg (· + row.chargedBytes) hst.bytes_eq).trans
        (total_set_new GatewayIdempotencyRecord.chargedBytes row hn).symm
  | @settle _ key record row bytes hg hwr hfp hbs hm hw =>
    have ht := Table.total_set GatewayIdempotencyRecord.chargedBytes row hg
    rw [← hst.bytes_eq] at ht
    refine ⟨hst.written_set hwr, ?_, hst.records_le, ?_, hm, hw⟩
    · exact hst.records_eq.trans (size_set row hg).symm
    · dsimp only [MemoryState.replaceRow]
      omega
  | release hg hob hp => exact hst.removeRow _
  | @close expected next keys hk =>
    have ho : store.Accounted { state with retryEpoch := next } :=
      ⟨hst.written, hst.records_eq, hst.records_le, hst.bytes_eq, hst.bytes_le, hst.bytes_word⟩
    clear hk
    generalize ({ state with retryEpoch := next } : MemoryState) = opened at ho
    induction keys generalizing opened with
    | nil => exact ho
    | cons key keys ih => exact ih _ (ho.removeRow key)

end Accounted

theorem step_turn (call : Call) :
    (∃ e, store.step state call = (.error e, state)) ∨ ∃ answer state',
      store.step state call = (.ok answer, state') ∧ Turn store state call answer state' := by
  unfold step
  cases h : store.perform state call with
  | error e => exact .inl ⟨e, rfl⟩
  | ok result => exact .inr ⟨_, _, rfl, perform_turn hst h⟩

theorem turn_of_step (h : (store.step state call).1 = .ok answer) :
    Turn store state call answer (store.step state call).2 := by
  rcases step_turn hst call with ⟨e, hs⟩ | ⟨answer', state', hs, ht⟩
  · rw [hs] at h
    cases h
  · rw [hs] at h ⊢
    cases h
    exact ht

end

theorem accounted_step (state : MemoryState) (call : Call) (hst : store.Accounted state) :
    store.Accounted (store.step state call).2 := by
  rcases step_turn hst call with ⟨e, hs⟩ | ⟨answer, state', hs, ht⟩
  · rw [hs]
    exact hst
  · rw [hs]
    exact hst.turn ht

theorem accounted_after (calls : List Call) : store.Accounted (store.after calls) := by
  refine Machine.run_invariant accounted_step ⟨?_, rfl, Nat.zero_le _, rfl, Nat.zero_le _,
    Nat.zero_le _⟩ calls
  intro key record h
  cases h

/-! ## What happens to one row -/

/-- A committed result whose outcome is known, with no operation left to resolve. -/
structure Settled (codec : Codec) (value : Value) : Prop where
  committed : strField value "state" = some ("committed" : Text)
  evidence : ∃ unresolved, value.get "unresolved_operations" = some unresolved ∧
    (unresolved.get "identities_incomplete").bind asBool = some false ∧
    unresolved.get "operation_ids" = some (.list [])
  outcome : ((strField value "outcome_status" = some ("done" : Text) ∨
      strField value "outcome_status" = some ("short" : Text)) ∧
      (value.get "outcome_value").isSome = true) ∨
    strField value "outcome_status" = some ("fail" : Text) ∧ ∃ encoded,
      strField value "failure_json" = some encoded ∧ codec.readFailure encoded = .ok false

theorem settled_of_requireRetirable {codec : Codec} {value : Value}
    (h : requireRetirable codec value = .ok ()) : Settled codec value := by
  simp only [requireRetirable, bind_ok, ofOption_ok, check_ok, filter_eq_some_iff] at h
  obtain ⟨_, hst, unresolved, ⟨hg, -⟩, -, hr, h⟩ := h
  have hi : (unresolved.get "identities_incomplete").bind asBool = some false ∧
      unresolved.get "operation_ids" = some (.list []) := by
    rw [resolved, Bool.and_eq_true, beq_iff_eq] at hr
    refine ⟨hr.1, ?_⟩
    have hl := hr.2
    split at hl
    next ids hi => rw [hi, List.isEmpty_iff.mp hl]
    next => cases hl
  refine ⟨strField_of_requireState hst, ⟨unresolved, hg, hi⟩, ?_⟩
  split at h
  next hd => exact .inl hd
  next =>
    split at h
    next hf =>
      simp only [bind_ok, ofOption_ok, mapError_ok, check_ok] at h
      obtain ⟨encoded, he, _, hre, rfl⟩ := h
      exact .inr ⟨hf, encoded, he, hre⟩
    next => cases h

theorem reclaimable_ok {current : Nat} (h : record.reclaimable store.codec current = .ok true) :
    record.metadata.retryEpoch < current ∧ ∃ observed, record.observe store.codec = .ok observed ∧
      (strField observed.value "state" = some ("retired" : Text) ∨
        Settled store.codec observed.value) := by
  unfold GatewayIdempotencyRecord.reclaimable at h
  split at h
  next => cases h
  next hep =>
    simp only [bind_ok] at h
    obtain ⟨observed, ho, state, hst, h⟩ := h
    refine ⟨Nat.lt_of_not_le hep, observed, ho, ?_⟩
    rcases (Bool.or_eq_true _ _).mp (Except.ok.inj h) with hr | hok
    · rw [strField_of_stateName hst, of_decide_eq_true hr]
      exact .inl rfl
    · cases hre : requireRetirable store.codec observed.value with
      | error e =>
        rw [hre] at hok
        cases hok
      | ok u => exact .inr (settled_of_requireRetirable hre)

/-- The call takes away the row of a key: it releases the pending row, or closes the epoch. -/
def Frees (store : MemoryGatewayIdempotencyStore) (key : Text) (state : MemoryState) (call : Call) :
    Prop :=
  ∃ record, state.records.get key = some record ∧ (store.step state call).2.records.get key = none ∧
    ((∃ expected observed, call = .release key expected ∧ (store.step state call).1 = .ok .settled ∧
        record.observe store.codec = .ok observed ∧
        strField observed.value "state" = some ("pending" : Text)) ∨
      ∃ expected next, call = .closeRetryEpoch expected ∧
        (store.step state call).1 = .ok (.closed next))

section

variable (hst : store.Accounted state)
include hst

theorem frees_or_keeps (hg : state.records.get key = some record) :
    store.Frees key state call ∨ ∃ row, (store.step state call).2.records.get key = some row ∧
      row.metadata.fingerprint = record.metadata.fingerprint := by
  unfold Frees
  rcases step_turn hst call with ⟨e, hs⟩ | ⟨answer, state', hs, ht⟩
  · rw [hs]
    exact .inr ⟨record, hg, rfl⟩
  rw [hs]
  cases ht with
  | replay | observe => exact .inr ⟨record, hg, rfl⟩
  | @grant other _ row hn =>
    have hne : key ≠ other := by
      rintro rfl
      rw [hg] at hn
      cases hn
    exact .inr ⟨record, (get_set_of_ne _ _ hne).trans hg, rfl⟩
  | @settle _ other old row bytes hold _ hfp =>
    by_cases heq : key = other
    · subst heq
      rw [hg] at hold
      cases hold
      exact .inr ⟨row, get_set_self _ _ _, hfp⟩
    · exact .inr ⟨record, (get_set_of_ne _ _ heq).trans hg, rfl⟩
  | @release other expected old observed hold ho hp =>
    by_cases heq : key = other
    · subst heq
      rw [hg] at hold
      cases hold
      exact .inl ⟨record, hg, get_removeRow.trans (if_pos rfl),
        .inl ⟨expected, observed, rfl, rfl, ho, hp⟩⟩
    · exact .inr ⟨record, (get_removeRow.trans (if_neg heq)).trans hg, rfl⟩
  | @close expected next keys hk =>
    by_cases hm : key ∈ keys
    · exact .inl ⟨record, hg, (get_removeRows keys).trans (if_pos hm),
        .inr ⟨expected, next, rfl, rfl⟩⟩
    · exact .inr ⟨record, ((get_removeRows keys).trans (if_neg hm)).trans hg, rfl⟩

theorem exists_frees {calls : List Call} (hge : state.records.get key = some record)
    (hg : (Machine.run store.step state calls).records.get key = none) :
    ∃ front call back, calls = front ++ call :: back ∧
      store.Frees key (Machine.run store.step state front) call := by
  induction calls generalizing state record with
  | nil =>
    rw [Machine.run, foldl_nil, hge] at hg
    cases hg
  | cons call calls ih =>
    rcases @frees_or_keeps store state call key record hst hge with hf | ⟨row, hr, -⟩
    · exact ⟨[], call, calls, rfl, hf⟩
    · obtain ⟨front, freeing, back, rfl, h⟩ := ih (accounted_step state call hst) hr hg
      exact ⟨call :: front, freeing, back, rfl, h⟩

theorem granted {pending : TaintedValue}
    (h : (store.step state (.reserve key pending)).1 = .ok (.reserved none)) :
    state.records.get key = none ∧ retryEpoch pending.value = .ok state.retryEpoch ∧
      ∃ row, (store.step state (.reserve key pending)).2.records.get key = some row := by
  have ht := turn_of_step hst h
  generalize (store.step state (.reserve key pending)).2 = state' at ht
  cases ht with
  | grant hn hep => exact ⟨hn, hep, _, get_set_self _ _ _⟩

/-- What a pending row has reserved is enough for any result that fits a row. -/
theorem complete_fits (hg : state.records.get key = some record)
    {observed result : TaintedValue} (ho : record.observe store.codec = .ok observed)
    (hpe : requireState observed.value "pending" = .ok ())
    (hcomp : completed store.codec ⟨result.value, result.taint.union observed.taint⟩ store.limits =
      .ok row)
    (hb : row.validateBinding key = .ok ())
    (hr : row.validateReplacement store.codec observed.value = .ok ()) :
    (store.step state (.complete key observed.value result)).1 = .ok .settled := by
  obtain ⟨value, reserved, he, hre⟩ := hst.written key record hg
  have hp := strField_of_requireState hpe
  rw [he.faithful observed ho] at hp
  have hc := he.charged
  rw [hre hp] at hc
  -- the row of the result is charged at most what the reservation was
  have hro : row.chargedBytes ≤ record.chargedBytes := by
    obtain ⟨_, -, hen⟩ := bind_ok.mp hcomp
    obtain ⟨_, -, hen⟩ := bind_ok.mp hen
    have hro := encodes_of_encode store.valid hen
    rw [hro.charged, hc]
    exact Nat.add_le_add_left hro.length_le _
  have hle : record.chargedBytes ≤ state.usage.bytes := by
    rw [hst.bytes_eq, ← total_remove GatewayIdempotencyRecord.chargedBytes hg]
    exact Nat.le_add_left _ _
  have hm := hst.bytes_le
  have hw := hst.bytes_word
  have hbs : store.withinBytes ((if record.chargedBytes ≤ state.usage.bytes
      then some (state.usage.bytes - record.chargedBytes) else none).bind
        (checkedAdd · row.chargedBytes)) =
      some (state.usage.bytes - record.chargedBytes + row.chargedBytes) := by
    rw [if_pos hle, withinBytes_eq_some, bind_some, checkedAdd_eq_some]
    omega
  obtain ⟨_, hk, -⟩ := bind_ok.mp hb
  have hpf : store.perform state (.complete key observed.value result) =
      .ok (.settled, state.replaceRow key row
        (state.usage.bytes - record.chargedBytes + row.chargedBytes)) := by
    simp only [perform, complete, replace, bind_ok, ofOption_ok, check_ok]
    exact ⟨_, hk, record, hg, observed, ho, (), rfl, row, ⟨_, hpe, hcomp⟩, _, hb,
      _, hr, _, hbs, rfl⟩
  rw [step, hpf]

end

/-- In every history of the store each request is admitted at most once for each row of evidence,
and the accounting of the rows is exact and within the limits. -/
theorem requests_are_admitted_at_most_once (store : MemoryGatewayIdempotencyStore)
    (calls : List Call) :
    (∀ key first between second,
      (store.step (store.after calls) (.reserve key first)).1 = .ok (.reserved none) →
      (store.step (store.after (calls ++ .reserve key first :: between)) (.reserve key second)).1 =
        .ok (.reserved none) →
      ∃ front call back, between = front ++ call :: back ∧
        store.Frees key (store.after (calls ++ .reserve key first :: front)) call) ∧
    (∀ key pending, (store.step (store.after calls) (.reserve key pending)).1 =
        .ok (.reserved none) →
      retryEpoch pending.value = .ok (store.after calls).retryEpoch) ∧
    (∀ expected next key record,
      (store.step (store.after calls) (.closeRetryEpoch expected)).1 = .ok (.closed next) →
      (store.after calls).records.get key = some record →
      (store.after (calls ++ [.closeRetryEpoch expected])).records.get key = some record ∨
        (store.after (calls ++ [.closeRetryEpoch expected])).records.get key = none ∧
        record.metadata.retryEpoch < next ∧ ∃ observed, record.observe store.codec = .ok observed ∧
          (strField observed.value "state" = some ("retired" : Text) ∨
            Settled store.codec observed.value)) ∧
    (∀ call key record row, (store.after calls).records.get key = some record →
      (store.after (calls ++ [call])).records.get key = some row →
      row.metadata.fingerprint = record.metadata.fingerprint) ∧
    ((store.after calls).usage.records = (store.after calls).records.size ∧
      (store.after calls).usage.records ≤ store.limits.maxRecords ∧
      (store.after calls).usage.bytes =
        (store.after calls).records.total GatewayIdempotencyRecord.chargedBytes ∧
      (store.after calls).usage.bytes ≤ store.limits.maxBytes) ∧
    ∀ key record observed result row, (store.after calls).records.get key = some record →
      record.observe store.codec = .ok observed → requireState observed.value "pending" = .ok () →
      completed store.codec ⟨result.value, result.taint.union observed.taint⟩
        store.limits = .ok row →
      row.validateBinding key = .ok () →
      row.validateReplacement store.codec observed.value = .ok () →
      (store.step (store.after calls) (.complete key observed.value result)).1 = .ok .settled := by
  have hafter : ∀ more, store.after (calls ++ more) =
      Machine.run store.step (store.after calls) more :=
    fun more => Machine.run_append store.step _ calls more
  have hstate : store.Accounted (store.after calls) := accounted_after calls
  refine ⟨?_, fun key pending h => (granted hstate h).2.1, ?_, ?_,
    ⟨hstate.records_eq, hstate.records_le, hstate.bytes_eq, hstate.bytes_le⟩,
    fun key record observed result row hget => complete_fits hstate hget⟩
  · intro key first between second hfirst hsecond
    obtain ⟨-, -, row, hrow⟩ := granted hstate hfirst
    have hgone := (granted (accounted_after _) hsecond).1
    rw [hafter] at hgone
    obtain ⟨front, call, back, rfl, hfrees⟩ := exists_frees (accounted_step _ _ hstate) hrow hgone
    refine ⟨front, call, back, rfl, ?_⟩
    rw [hafter]
    exact hfrees
  · intro expected next key record hclose hget
    rw [hafter]
    have hturn := turn_of_step hstate hclose
    change (store.step (store.after calls) (.closeRetryEpoch expected)).2.records.get key = _ ∨
      (store.step (store.after calls) (.closeRetryEpoch expected)).2.records.get key = _ ∧ _
    generalize (store.step (store.after calls) (.closeRetryEpoch expected)).2 = closed at hturn
    cases hturn with
    | @close _ _ keys hkeys =>
      by_cases hmem : key ∈ keys
      · obtain ⟨record', hget', hreclaim⟩ := hkeys key hmem
        rw [hget] at hget'
        cases hget'
        exact .inr ⟨(get_removeRows keys).trans (if_pos hmem), reclaimable_ok hreclaim⟩
      · exact .inl (((get_removeRows keys).trans (if_neg hmem)).trans hget)
  · intro call key record row hget hrow
    have hone : Machine.run store.step (store.after calls) [call] =
        (store.step (store.after calls) call).2 := rfl
    rw [hafter, hone] at hrow
    rcases @frees_or_keeps store _ call key record hstate hget with ⟨-, -, hgone, -⟩ | ⟨_, hrow', h⟩
    · rw [hgone] at hrow
      cases hrow
    · rw [hrow'] at hrow
      cases hrow
      exact h

/-! ## One request

Its evidence is written as the source writes it: the provenance as an object, the value as a table
of nodes that refer to earlier ones. -/

def quoted (text : Text) : Text := '"' :: text ++ ['"']

def commas (items : List Text) : Text := (items.intersperse [',']).flatten

def node (kind : Text) (content : Text) : Text := "\x7b" ++ quoted kind ++ ":" ++ content ++ "\x7d"

def numeral (n : Nat) : Text := Nat.toDigits 10 n

mutual

/-- The nodes of a value with its own at the end; `next` nodes stand before them. -/
def tableNodes (next : Nat) : Value → List Text
  | .bool b => [node "bool" (if b then "true" else "false")]
  | .str s => [node "str" (quoted s)]
  | .list items =>
    let (nodes, ids) := itemNodes next items
    nodes ++ [node "list" ("[" ++ commas ids ++ "]")]
  | .map members =>
    let (nodes, ids) := memberNodes next members
    nodes ++ [node "map" ("[" ++ commas ids ++ "]")]
  | _ => []

def itemNodes (next : Nat) : List Value → List Text × List Text
  | [] => ([], [])
  | item :: items =>
    let nodes := tableNodes next item
    let (rest, ids) := itemNodes (next + nodes.length) items
    (nodes ++ rest, numeral (next + nodes.length - 1) :: ids)

def memberNodes (next : Nat) : List (Text × Value) → List Text × List Text
  | [] => ([], [])
  | (key, value) :: members =>
    let nodes := tableNodes next value
    let (rest, ids) := memberNodes (next + nodes.length) members
    (nodes ++ rest, ("[" ++ commas [quoted key, numeral (next + nodes.length - 1)] ++ "]") :: ids)

end

def table (value : Value) : List UInt8 :=
  let nodes := tableNodes 0 value
  Text.bytes ("\x7b\"version\":1,\"nodes\":[" ++ commas nodes ++ "],\"root\":" ++
    numeral (nodes.length - 1) ++ "\x7d")

def requestKey : Text := List.replicate 64 'a'

def evidence (state epoch : Text) (outcome : List (Text × Value)) : Value :=
  let scope : List (Text × Value) := [("caller_material_hash", .str requestKey),
    ("caller_material_kind", .str "idempotency_key"), ("effective_key_hash", .str requestKey),
    ("principal_id", .str "p"), ("profile_name", .str "n"), ("profile_rev", .str "1"),
    ("retry_epoch", .str epoch), ("schema", .str "gateway-idempotency-v1"), ("state", .str state),
    ("submission_hash", .str requestKey), ("surface_id", .str "s")]
  .map (OrderedAssoc.ofEntries (scope ++ outcome))

def pendingEvidence (epoch : Text) : Value := evidence "pending" epoch []

def committedEvidence : Value :=
  evidence "committed" "0" [("outcome_status", .str "done"), ("outcome_value", .bool true),
    ("unresolved_operations",
      .map [("identities_incomplete", .bool false), ("operation_ids", .list [])])]

def documents : List Value :=
  [pendingEvidence "0", pendingEvidence "1", committedEvidence, evidence "retired" "0" []]

theorem table_injective : ∀ value ∈ documents, ∀ other ∈ documents,
    table value = table other → value = other := by
  decide +kernel

def pristineText : List UInt8 := Text.bytes "\x7b\"sources\":[]\x7d"

def evidenceCodec : Codec where
  writeTaint taint := if taint = .pristine then .ok pristineText else .error "unknown provenance"
  readTaint bytes := if bytes = pristineText then .ok .pristine else .error "unknown provenance"
  writeValue value := if value ∈ documents then .ok (table value) else .error "unknown value"
  readValue bytes :=
    match documents.find? fun value => table value = bytes with
    | some value => .ok value
    | none => .error "unknown value"
  readFailure _ := .error "unknown failure"
  -- A checksum of as many bytes as the digest has.
  digest bytes := List.replicate 32 (bytes.foldl (· + ·) 0)
  faithful := by
    intro value bytes read hwrite hread
    split at hwrite
    next hmem =>
      cases hwrite
      split at hread
      next found hfound =>
        cases hread
        have hsame := find?_some hfound
        exact table_injective _ (mem_of_find?_eq_some hfound) _ hmem (of_decide_eq_true hsame)
      next => cases hread
    next => cases hwrite

def evidenceStore : MemoryGatewayIdempotencyStore := ⟨evidenceCodec, ⟨2, 4096, 1024⟩, by decide⟩

def reservePending (epoch : Text) : Call :=
  .reserve requestKey ⟨pendingEvidence epoch, .pristine⟩

def completePending : Call :=
  .complete requestKey (pendingEvidence "0") ⟨committedEvidence, .pristine⟩

def evidenceRow (value : Value) (reserved : Bool) : GatewayIdempotencyRecord :=
  match encode evidenceCodec ⟨value, .pristine⟩ evidenceStore.limits reserved with
  | .ok row => row
  | .error _ => ⟨[], 0, ⟨[], [], 0⟩⟩

/-- A request is admitted again after its release, and after its outcome was recorded, retired and
its epoch closed; the outcome fits the row that was reserved for it. -/
theorem requests_are_admitted_at_most_once_evidence :
    let settling := [completePending, .retire requestKey committedEvidence, .closeRetryEpoch 0]
    (∃ front call back, [Call.release requestKey (pendingEvidence "0")] = front ++ call :: back ∧
      evidenceStore.Frees requestKey (evidenceStore.after (reservePending "0" :: front)) call) ∧
    (∃ front call back, settling = front ++ call :: back ∧
      evidenceStore.Frees requestKey (evidenceStore.after (reservePending "0" :: front)) call) ∧
    retryEpoch (pendingEvidence "1") =
      .ok (evidenceStore.after (reservePending "0" :: settling)).retryEpoch ∧
    (evidenceStore.step (evidenceStore.after [reservePending "0"]) completePending).1 =
      .ok .settled ∧
    (evidenceStore.after [reservePending "0", completePending]).usage.bytes = 903 ∧
    (evidenceStore.after [reservePending "0", completePending]).records.total
      GatewayIdempotencyRecord.chargedBytes = 903 := by
  intro settling
  have hfirst : (evidenceStore.step (evidenceStore.after []) (reservePending "0")).1 =
      .ok (.reserved none) := by decide +kernel
  have hlater : (evidenceStore.step (evidenceStore.after (reservePending "0" :: settling))
      (reservePending "1")).1 = .ok (.reserved none) := by decide +kernel
  have hcharged :
      (evidenceStore.after [reservePending "0", completePending]).usage.bytes = 903 := by
    decide +kernel
  refine ⟨?_, ?_, ?_, ?_, hcharged, ?_⟩
  · exact (requests_are_admitted_at_most_once evidenceStore []).1 requestKey _ _
      ⟨pendingEvidence "0", .pristine⟩ hfirst (by decide +kernel)
  · exact (requests_are_admitted_at_most_once evidenceStore []).1 requestKey _ settling _ hfirst
      hlater
  · exact (requests_are_admitted_at_most_once evidenceStore _).2.1 requestKey _ hlater
  · obtain ⟨-, -, -, -, -, hfits⟩ :=
      requests_are_admitted_at_most_once evidenceStore [reservePending "0"]
    exact hfits requestKey (evidenceRow (pendingEvidence "0") true)
      ⟨pendingEvidence "0", .pristine⟩ ⟨committedEvidence, .pristine⟩
      (evidenceRow committedEvidence false) (by decide +kernel) (by decide +kernel)
      (by decide +kernel) (by decide +kernel) (by decide +kernel) (by decide +kernel)
  · obtain ⟨-, -, -, -, ⟨-, -, hbytes, -⟩, -⟩ :=
      requests_are_admitted_at_most_once evidenceStore [reservePending "0", completePending]
    exact hbytes.symm.trans hcharged

end MemoryGatewayIdempotencyStore

end Xolotl.Gateway
