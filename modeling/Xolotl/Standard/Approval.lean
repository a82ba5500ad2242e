import Xolotl.Lib.Machine
import Xolotl.Lib.Text

/-! The approval broker. An ask stores a pending record under its key, a response merges its vote
into the record by compare-and-set with a bounded number of attempts, and a check only reads. Any
number of brokers take turns on the store, each with its own clock. -/

namespace Xolotl.Standard

open Function

/-! ## Records -/

inductive Status
  | pending | approved | denied | expired
  deriving DecidableEq

inductive Fanout
  | anyOne | requireAll
  deriving DecidableEq

structure Record where
  status : Status := .pending
  fanout : Fanout
  approvers : List Text
  deadlineMillis : Int
  approvals : List Text := []
  denials : List Text := []
  deriving DecidableEq

namespace Record

def pending (fanout : Fanout) (approvers : List Text) (deadlineMillis : Int) : Record :=
  { fanout, approvers, deadlineMillis }

variable (r : Record) (now : Int) (approver : Text) (approve : Bool)

def isDecided : Bool := r.status != .pending

def late : Bool := decide (0 < r.deadlineMillis ∧ r.deadlineMillis < now)

def effectiveStatus : Status :=
  if r.status = .pending ∧ r.late now then .expired else r.status

def satisfied : Bool :=
  match r.fanout with
  | .anyOne => !r.approvals.isEmpty
  | .requireAll =>
    if r.approvers.isEmpty then !r.approvals.isEmpty
    else r.approvers.all fun a => r.approvals.any (· == a)

def resolve : Record :=
  if !r.denials.isEmpty then { r with status := .denied }
  else if r.satisfied then { r with status := .approved }
  else r

def pushNew (names : List Text) (name : Text) : List Text :=
  if names.any (· == name) then names else names ++ [name]

def apply : Record :=
  resolve <|
    if approve then { r with approvals := pushNew r.approvals approver }
    else { r with denials := pushNew r.denials approver }

def respond : Record :=
  if r.effectiveStatus now = .expired then { r with status := .expired }
  else r.apply approver approve

end Record

/-! ## Brokers -/

inductive RespondError
  | missing | retriesExhausted
  deriving DecidableEq

/-- Where a response stands: it is about to read with some attempts left, or to replace the record
it has read; or it has returned, with the status it stored, the one it found, or an error. -/
inductive Phase
  | reading (left : Nat)
  | writing (left : Nat) (expected : Record)
  | stored (status : Status)
  | found (status : Status)
  | failed (error : RespondError)

structure Respond where
  approver : Text
  approve : Bool
  clock : Int := 0
  phase : Phase := .reading 8

structure Brokers where
  store : Option Record := none
  calls : Nat → Option Respond := fun _ => none

inductive Event
  | ask (fanout : Fanout) (approvers : List Text) (deadlineMillis : Int)
  | respond (id : Nat) (approver : Text) (approve : Bool)
  | advance (id : Nat) (now : Int)

namespace Brokers

section

variable (s : Brokers) (id : Nat) (call : Respond) (now : Int)

def check : Option Status := s.store.map (·.effectiveStatus now)

def put : Brokers :=
  { s with calls := update s.calls id (some call) }

def access : Brokers :=
  match call.phase with
  | .reading 0 => s.put id { call with phase := .failed .retriesExhausted }
  | .reading (left + 1) =>
    match s.store with
    | none => s.put id { call with phase := .failed .missing }
    | some r =>
      if r.isDecided then s.put id { call with phase := .found r.status }
      else s.put id { call with clock := now, phase := .writing left r }
  | .writing left expected =>
    let r := expected.respond call.clock call.approver call.approve
    if s.store = some expected then
      { s.put id { call with phase := .stored r.status } with store := some r }
    else s.put id { call with phase := .reading left }
  | _ => s

def step : Event → Unit × Brokers
  | .ask fanout approvers deadlineMillis =>
    ((), if s.store.isNone then { s with store := some (.pending fanout approvers deadlineMillis) }
      else s)
  | .respond id approver approve =>
    ((), if (s.calls id).isNone then s.put id { approver, approve } else s)
  | .advance id now => ((), match s.calls id with | none => s | some call => s.access id call now)

def run (events : List Event) : Brokers := Machine.run step {} events

end

end Brokers

/-! ## Records only grow -/

namespace Record

variable {r r' : Record}

structure Grows (r r' : Record) : Prop where
  fanout : r'.fanout = r.fanout
  approvers : r'.approvers = r.approvers
  deadlineMillis : r'.deadlineMillis = r.deadlineMillis
  approvals : r.approvals ⊆ r'.approvals
  final : r.status ≠ .pending → r' = r

theorem Grows.refl (r : Record) : Grows r r := ⟨rfl, rfl, rfl, List.Subset.refl _, fun _ => rfl⟩

theorem Grows.trans {r'' : Record} (h : Grows r r') (h' : Grows r' r'') : Grows r r'' where
  fanout := h'.fanout.trans h.fanout
  approvers := h'.approvers.trans h.approvers
  deadlineMillis := h'.deadlineMillis.trans h.deadlineMillis
  approvals := List.Subset.trans h.approvals h'.approvals
  final hr := by
    have hs := h.final hr
    rw [h'.final (hs ▸ hr), hs]

/-- A denial is stored with its decision, and an approval only when the policy is satisfied. -/
structure Resolved (r : Record) : Prop where
  denied : r.denials ≠ [] → r.status = .denied
  approved : r.status = .approved → r.denials = [] ∧ r.satisfied = true

theorem mem_pushNew {names : List Text} {name a : Text} :
    a ∈ pushNew names name ↔ a ∈ names ∨ a = name := by
  unfold pushNew
  split
  next h =>
    have hm : name ∈ names := by simpa using h
    exact ⟨.inl, fun h => h.elim id fun heq => heq ▸ hm⟩
  next => rw [List.mem_append, List.mem_singleton]

theorem resolve_cases (r : Record) (hr : r.status = .pending) :
    ∃ status, r.resolve = { r with status } ∧ Resolved r.resolve := by
  unfold resolve
  split
  next hd => exact ⟨.denied, rfl, fun _ => rfl, nofun⟩
  next hd =>
    have hn : r.denials = [] := by simpa using hd
    split
    next hs => exact ⟨.approved, rfl, absurd hn, fun _ => ⟨hn, hs⟩⟩
    next => exact ⟨r.status, rfl, absurd hn, fun ha => nomatch hr.symm.trans ha⟩

theorem Resolved.justified {P : Text → Prop} (h : Resolved r)
    (hap : r.status = .approved) (hv : ∀ a ∈ r.approvals, P a) :
    (r.fanout = .anyOne ∨ r.approvers = []) ∧ (∃ a, P a) ∨ ∀ a ∈ r.approvers, P a := by
  have hs (hne : (!r.approvals.isEmpty) = true) : ∃ a, P a := by
    obtain ⟨a, ha⟩ := List.exists_mem_of_ne_nil r.approvals (by simpa using hne)
    exact ⟨a, hv a ha⟩
  have hsa := (h.approved hap).2
  unfold satisfied at hsa
  split at hsa
  next hf => exact .inl ⟨.inl hf, hs hsa⟩
  next =>
    split at hsa
    next hn => exact .inl ⟨.inr (by simpa using hn), hs hsa⟩
    next =>
      refine .inr fun a ha => hv a ?_
      simpa using List.all_eq_true.mp hsa a ha

theorem respond_cases (now : Int) (approver : Text) (approve : Bool) (hr : r.status = .pending)
    (h : Resolved r) :
    let r' := r.respond now approver approve
    Grows r r' ∧ Resolved r' ∧
      (r'.status = .pending → approve = true ∧ approver ∈ r'.approvals) ∧
      ∀ a ∈ r'.approvals, a ∈ r.approvals ∨ a = approver ∧ approve = true ∧ r.late now = false := by
  have hl : r.effectiveStatus now = .expired ↔ r.late now = true := by
    simp [effectiveStatus, hr]
  unfold respond
  split
  next =>
    refine ⟨⟨rfl, rfl, rfl, List.Subset.refl _, absurd hr⟩, ⟨fun hde => ?_, nofun⟩, nofun,
      fun a ha => .inl ha⟩
    exact nomatch hr.symm.trans (h.denied hde)
  next hc =>
    have ht : r.late now = false := by simpa [hl] using hc
    unfold apply
    split
    next hv =>
      obtain ⟨status, heq, hre⟩ :=
        resolve_cases { r with approvals := pushNew r.approvals approver } hr
      rw [heq] at hre ⊢
      exact ⟨⟨rfl, rfl, rfl, fun a ha => mem_pushNew.mpr (.inl ha), absurd hr⟩, hre,
        fun _ => ⟨hv, mem_pushNew.mpr (.inr rfl)⟩,
        fun a ha => (mem_pushNew.mp ha).imp id fun heq => ⟨heq, hv, ht⟩⟩
    next hve =>
      obtain ⟨status, heq, hre⟩ := resolve_cases { r with denials := pushNew r.denials approver } hr
      rw [heq] at hre ⊢
      refine ⟨⟨rfl, rfl, rfl, List.Subset.refl _, absurd hr⟩, hre, fun hp => ?_,
        fun a ha => .inl ha⟩
      have hd := hre.denied (List.ne_nil_of_mem (mem_pushNew.mpr (.inr rfl)))
      exact nomatch hp.symm.trans hd

end Record

/-! ## Every interleaving -/

/-- Whether a response has the clock it will decide with, or has decided with. -/
def Phase.timed : Phase → Bool
  | .writing .. | .stored _ => true
  | _ => false

namespace Brokers

variable {s s' : Brokers} {r r' : Record} {id : Nat} {c c' : Respond} {a : Text}
  {store store' : Option Record}

/-- Some response has stored a vote to approve, cast before the deadline by its broker's clock. -/
def Voted (s : Brokers) (r : Record) (a : Text) : Prop :=
  ∃ id c status, s.calls id = some c ∧ c.phase = .stored status ∧ c.approver = a ∧
    c.approve = true ∧ r.late c.clock = false

/-- What is known of a response: it replaces only undecided records, and it has returned what is
stored. -/
def Answered (store : Option Record) (c : Respond) : Prop :=
  match c.phase with
  | .writing _ expected => expected.status = .pending
  | .stored .pending => c.approve = true ∧ ∃ r ∈ store, c.approver ∈ r.approvals
  | .stored status | .found status => ∃ r ∈ store, r.status = status ∧ status ≠ .pending
  | _ => True

structure Consistent (s : Brokers) : Prop where
  record : ∀ r ∈ s.store, r.Resolved ∧ ∀ a ∈ r.approvals, s.Voted r a
  answered : ∀ id, ∀ c ∈ s.calls id, Answered s.store c

structure Steps (s s' : Brokers) : Prop where
  store : ∀ r ∈ s.store, ∃ r' ∈ s'.store, r.Grows r'
  calls : ∀ id, ∀ c ∈ s.calls id, ∀ status, c.phase = .stored status → c ∈ s'.calls id

theorem Answered.mono (hs : ∀ r ∈ store, ∃ r' ∈ store', r.Grows r')
    (h : Answered store c) : Answered store' c := by
  have hf {status : Status} (h : ∃ r ∈ store, r.status = status ∧ status ≠ .pending) :
      ∃ r ∈ store', r.status = status ∧ status ≠ .pending := by
    obtain ⟨r, hr, rfl, hd⟩ := h
    obtain ⟨r', hr', hg⟩ := hs r hr
    exact ⟨r', hr', by rw [hg.final hd], hd⟩
  unfold Answered at h ⊢
  split at h
  · exact h
  · obtain ⟨hv, r, hr, hm⟩ := h
    obtain ⟨r', hr', hg⟩ := hs r hr
    exact ⟨hv, r', hr', hg.approvals hm⟩
  · exact hf h
  · exact hf h
  · trivial

theorem Steps.refl (s : Brokers) : Steps s s := ⟨fun r hr => ⟨r, hr, .refl r⟩, fun _ _ hc _ _ => hc⟩

theorem Steps.trans {s'' : Brokers} (h : Steps s s') (h' : Steps s' s'') : Steps s s'' where
  store r hr := by
    obtain ⟨r', hr', hg⟩ := h.store r hr
    obtain ⟨r'', hr'', hg'⟩ := h'.store r' hr'
    exact ⟨r'', hr'', hg.trans hg'⟩
  calls id c hc status hp := h'.calls id c (h.calls id c hc status hp) status hp

theorem Steps.voted (h : Steps s s') (hg : r.Grows r') (hv : s.Voted r a) : s'.Voted r' a := by
  obtain ⟨id, c, status, hc, hp, hn, hvo, ht⟩ := hv
  refine ⟨id, c, status, h.calls id c hc status hp, hp, hn, hvo, ?_⟩
  rwa [Record.late, hg.deadlineMillis]

theorem Consistent.move (h : Consistent s) (hca : s'.calls = update s.calls id (some c'))
    (ho : ∀ c ∈ s.calls id, ∀ status, c.phase ≠ .stored status)
    (hst : ∀ r ∈ s.store, ∃ r' ∈ s'.store, r.Grows r') (ha : Answered s'.store c')
    (hr : Steps s s' → ∀ r ∈ s'.store, r.Resolved ∧ ∀ a ∈ r.approvals, s'.Voted r a) :
    Consistent s' ∧ Steps s s' := by
  have hs : Steps s s' := by
    refine ⟨hst, fun id' c hc status hp => ?_⟩
    by_cases hid : id' = id
    · subst hid
      exact absurd hp (ho c hc status)
    · rwa [hca, update_of_ne hid]
  refine ⟨⟨hr hs, fun id' c hc => ?_⟩, hs⟩
  rw [hca] at hc
  by_cases hid : id' = id
  · subst hid
    rw [update_self] at hc
    cases hc
    exact ha
  · rw [update_of_ne hid] at hc
    exact (h.answered id' c hc).mono hst

theorem Consistent.put (h : Consistent s)
    (ho : ∀ c ∈ s.calls id, ∀ status, c.phase ≠ .stored status)
    (han : Answered s.store c') : Consistent (s.put id c') ∧ Steps s (s.put id c') :=
  h.move rfl ho (fun r hr => ⟨r, hr, .refl r⟩) han fun hs r hr =>
    ⟨(h.record r hr).1, fun a ha => hs.voted (.refl r) ((h.record r hr).2 a ha)⟩

/-- An access keeps the vote of a response, and its clock from the read to the replacement. -/
structure Moved (now : Int) (c c' : Respond) : Prop where
  approver : c'.approver = c.approver
  approve : c'.approve = c.approve
  clock : c'.phase.timed = true → c'.clock = now ∨ c.phase.timed = true ∧ c'.clock = c.clock

/-- What an event does: an ask fills an empty store, a response is called, or it moves on without
the store, or it replaces the record it has read. -/
inductive Moves (s : Brokers) : Event → Brokers → Prop
  | stay (event : Event) : Moves s event s
  | ask {fanout : Fanout} {approvers : List Text} {deadlineMillis : Int} (hn : s.store = none) :
      Moves s (.ask fanout approvers deadlineMillis)
        { s with store := some (.pending fanout approvers deadlineMillis) }
  | call {id : Nat} {approver : Text} {approve : Bool} (hn : s.calls id = none) :
      Moves s (.respond id approver approve) (s.put id { approver, approve })
  | advance {id : Nat} {now : Int} {c c' : Respond} (hc : s.calls id = some c)
      (hp : ∀ status, c.phase ≠ .stored status) (hm : Moved now c c')
      (ha : Answered s.store c') : Moves s (.advance id now) (s.put id c')
  | replace {id left : Nat} {now : Int} {c : Respond} {expected r : Record}
      (hc : s.calls id = some c) (hp : c.phase = .writing left expected)
      (hs : s.store = some expected) (hr : r = expected.respond c.clock c.approver c.approve) :
      Moves s (.advance id now)
        { s.put id { c with phase := .stored r.status } with store := some r }

variable {events : List Event} {event : Event} {now : Int}

theorem access_moves (hc : s.calls id = some c) (now : Int) :
    Moves s (.advance id now) (s.access id c now) := by
  unfold access
  split
  next hp => exact .advance hc (by simp [hp]) ⟨rfl, rfl, nofun⟩ trivial
  next left hp =>
    split
    next => exact .advance hc (by simp [hp]) ⟨rfl, rfl, nofun⟩ trivial
    next r hr =>
      split
      next hd =>
        refine .advance hc (by simp [hp]) ⟨rfl, rfl, nofun⟩ ⟨r, hr, rfl, ?_⟩
        simpa [Record.isDecided] using hd
      next hu =>
        refine .advance hc (by simp [hp]) ⟨rfl, rfl, fun _ => .inl rfl⟩ ?_
        simpa [Record.isDecided, Answered] using hu
  next left expected hp =>
    dsimp only
    split
    next hs => exact .replace hc hp hs rfl
    next => exact .advance hc (by simp [hp]) ⟨rfl, rfl, nofun⟩ trivial
  next => exact .stay _

theorem step_moves (s : Brokers) (event : Event) : Moves s event (step s event).2 := by
  cases event with
  | ask fanout approvers deadlineMillis =>
    simp only [step]
    split
    next hn => exact .ask (Option.isNone_iff_eq_none.mp hn)
    next => exact .stay _
  | respond id approver approve =>
    simp only [step]
    split
    next hn => exact .call (Option.isNone_iff_eq_none.mp hn)
    next => exact .stay _
  | advance id now =>
    simp only [step]
    split
    next => exact .stay _
    next c hc => exact access_moves hc now

theorem Consistent.moves (h : Consistent s) (hm : Moves s event s') :
    Consistent s' ∧ Steps s s' := by
  cases hm with
  | stay => exact ⟨h, .refl s⟩
  | ask hn =>
    refine ⟨⟨fun r hr => ?_, fun id c hc => (h.answered id c hc).mono (by simp [hn])⟩,
      by simp [hn], fun _ _ hc _ _ => hc⟩
    cases hr
    exact ⟨⟨absurd rfl, nofun⟩, nofun⟩
  | call hn => exact h.put (by simp [hn]) trivial
  | advance hc hp hm ha =>
    refine h.put (fun c' hc' => ?_) ha
    cases hc.symm.trans hc'
    exact hp
  | @replace id left now c expected r hc hp hs hr =>
    have hpe : expected.status = .pending := by
      have han := h.answered id c hc
      rwa [Answered, hp] at han
    obtain ⟨hre, hvo⟩ := h.record expected hs
    obtain ⟨hg, hre', how, hvs⟩ := Record.respond_cases c.clock c.approver c.approve hpe hre
    rw [← hr] at hg hre' how hvs
    refine h.move rfl (fun c' hc' => ?_) (fun r hr => ?_) ?_ fun hst r hr => ?_
    · cases hc.symm.trans hc'
      simp [hp]
    · cases hs.symm.trans hr
      exact ⟨_, rfl, hg⟩
    · unfold Answered
      dsimp only
      split
      next heq => cases heq
      next heq =>
        obtain ⟨hv, hme⟩ := how (Phase.stored.inj heq)
        exact ⟨hv, _, rfl, hme⟩
      next status hne heq =>
        cases heq
        exact ⟨_, rfl, rfl, hne⟩
      next heq => cases heq
      next => trivial
    · cases hr
      refine ⟨hre', fun a ha => ?_⟩
      rcases hvs a ha with hold | ⟨rfl, hv, ht⟩
      · exact hst.voted hg (hvo a hold)
      · refine ⟨id, _, _, update_self .., rfl, rfl, hv, ?_⟩
        rwa [Record.late, hg.deadlineMillis]

theorem consistent_run (events : List Event) (h : Consistent s) :
    Consistent (Machine.run Brokers.step s events) ∧ Steps s (Machine.run Brokers.step s events) :=
  Machine.run_invariant (I := fun s' => Consistent s' ∧ Steps s s')
    (fun s' event h' => (h'.1.moves (step_moves s' event)).imp_right h'.2.trans) ⟨h, .refl s⟩ events

/-! ## Where records and votes come from -/

/-- An ask of the history that met an empty store has put the record there. -/
def Asked (events : List Event) (r : Record) : Prop :=
  ∃ front back, events = front ++ .ask r.fanout r.approvers r.deadlineMillis :: back ∧
    (run front).store = none

/-- A vote to approve that the history has: the response was called with it, and the clock that
was before the deadline is the one it was advanced with. -/
def Backed (events : List Event) (r : Record) (a : Text) : Prop :=
  ∃ id c status, (run events).calls id = some c ∧ c.phase = .stored status ∧ c.approver = a ∧
    c.approve = true ∧ r.late c.clock = false ∧
    .respond id a true ∈ events ∧ .advance id c.clock ∈ events

structure Traced (events : List Event) : Prop where
  asked : ∀ r ∈ (run events).store, Asked events r
  called : ∀ id, ∀ c ∈ (run events).calls id, .respond id c.approver c.approve ∈ events
  clocked : ∀ id, ∀ c ∈ (run events).calls id, c.phase.timed = true → .advance id c.clock ∈ events

theorem mem_put {id' : Nat} {c₁ : Respond} (hc : c' ∈ (s.put id c₁).calls id') :
    c' ∈ s.calls id' ∨ id' = id ∧ c' = c₁ := by
  change c' ∈ update s.calls id (some c₁) id' at hc
  by_cases hid : id' = id
  · subst hid
    rw [update_self] at hc
    exact .inr ⟨rfl, (Option.some.inj hc).symm⟩
  · rw [update_of_ne hid] at hc
    exact .inl hc

theorem Moves.calls (h : Moves s event s') (hc : c' ∈ s'.calls id) :
    c' ∈ s.calls id ∨
    event = .respond id c'.approver c'.approve ∧ c'.phase.timed = false ∨
    ∃ now, event = .advance id now ∧ ∃ c ∈ s.calls id, Moved now c c' := by
  cases h with
  | stay | ask => exact .inl hc
  | call =>
    rcases mem_put hc with hold | ⟨rfl, rfl⟩
    · exact .inl hold
    · exact .inr (.inl ⟨rfl, rfl⟩)
  | advance hcall hp hm =>
    rcases mem_put hc with hold | ⟨rfl, rfl⟩
    · exact .inl hold
    · exact .inr (.inr ⟨_, rfl, _, hcall, hm⟩)
  | replace hcall hp =>
    rcases mem_put hc with hold | ⟨rfl, rfl⟩
    · exact .inl hold
    · exact .inr (.inr ⟨_, rfl, _, hcall, rfl, rfl, fun _ => .inr ⟨by rw [hp]; rfl, rfl⟩⟩)

theorem Asked.snoc (h : Asked events r) (hg : r.Grows r') : Asked (events ++ [event]) r' := by
  obtain ⟨front, back, rfl, hn⟩ := h
  refine ⟨front, back ++ [event], ?_, hn⟩
  rw [hg.fanout, hg.approvers, hg.deadlineMillis, List.append_assoc, List.cons_append]

theorem Traced.snoc (h : Traced events) (event : Event) : Traced (events ++ [event]) := by
  have hrun : run (events ++ [event]) = (step (run events) event).2 := Machine.run_append ..
  have hm := step_moves (run events) event
  have hold {e : Event} (he : e ∈ events) : e ∈ events ++ [event] := List.mem_append_left _ he
  have hnew {e : Event} (he : event = e) : e ∈ events ++ [event] := by simp [he]
  refine ⟨fun r hr => ?_, fun id c' hc => ?_, fun id c' hc ht => ?_⟩
  · rw [hrun] at hr
    have hc := (consistent_run events (s := {}) ⟨nofun, nofun⟩).1
    have hst := (hc.moves hm).2.store
    generalize (step (run events) event).2 = s' at hm hr hst
    cases hm with
    | ask hn =>
      cases hr
      exact ⟨events, [], rfl, hn⟩
    | stay | call | advance => exact (h.asked r hr).snoc (.refl r)
    | replace hcall hp hs =>
      obtain ⟨r', hr', hg⟩ := hst _ hs
      cases hr'.symm.trans hr
      exact (h.asked _ hs).snoc hg
  · rw [hrun] at hc
    rcases hm.calls hc with hc | ⟨he, -⟩ | ⟨now, he, c, hc, hmoved⟩
    · exact hold (h.called id c' hc)
    · exact hnew he
    · rw [hmoved.approver, hmoved.approve]
      exact hold (h.called id c hc)
  · rw [hrun] at hc
    rcases hm.calls hc with hc | ⟨-, hf⟩ | ⟨now, he, c, hc, hmoved⟩
    · exact hold (h.clocked id c' hc ht)
    · exact nomatch hf.symm.trans ht
    · rcases hmoved.clock ht with rfl | ⟨htc, heq⟩
      · exact hnew he
      · rw [heq]
        exact hold (h.clocked id c hc htc)

theorem traced_run (events : List Event) : Traced events := by
  induction events using List.reverseRecOn with
  | nil => exact ⟨nofun, nofun, nofun⟩
  | append_singleton events event ih => exact ih.snoc event

theorem Voted.backed (h : (run events).Voted r a) : Backed events r a := by
  obtain ⟨id, c, status, hc, hp, rfl, hv, hl⟩ := h
  refine ⟨id, c, status, hc, hp, rfl, hv, hl, ?_, (traced_run events).clocked id c hc ?_⟩
  · exact hv ▸ (traced_run events).called id c hc
  · rw [hp]
    rfl

/-- Approval decisions are final and justified. `past` is any interleaving, and `future` any that
follows it. -/
theorem decisions_are_final_and_justified (past future : List Event) :
    let s := run past
    let s' := run (past ++ future)
    (∀ fanout approvers deadline, s.store = none →
      (step s (.ask fanout approvers deadline)).2.store =
        some (.pending fanout approvers deadline)) ∧
    (∀ r ∈ s.store, Asked past r) ∧
    (∀ r ∈ s.store, ∃ r' ∈ s'.store, r'.fanout = r.fanout ∧ r'.approvers = r.approvers ∧
      r'.deadlineMillis = r.deadlineMillis ∧
      (r.status ≠ .pending → r' = r ∧ ∀ now, s'.check now = some r.status ∧
        ∀ id c left, s'.calls id = some c → c.phase = .reading (left + 1) →
          (step s' (.advance id now)).2.calls id = some { c with phase := .found r.status }) ∧
      (r'.status = .approved → r.denials = [] ∧
        ((r'.fanout = .anyOne ∨ r'.approvers = []) ∧ (∃ a, Backed (past ++ future) r' a) ∨
          ∀ a ∈ r'.approvers, Backed (past ++ future) r' a))) ∧
    ∀ id, ∀ c ∈ s.calls id, ∀ status, c.phase = .stored status ∨ c.phase = .found status →
      ∃ r' ∈ s'.store, r'.status = status ∧ status ≠ .pending ∨
        status = .pending ∧ c.approve = true ∧ c.approver ∈ r'.approvals := by
  intro s s'
  obtain ⟨hs, -⟩ := consistent_run past (s := {}) ⟨nofun, nofun⟩
  obtain ⟨hs', hsteps⟩ := consistent_run future hs
  rw [← Machine.run_append] at hs' hsteps
  refine ⟨fun fanout approvers deadline hnone => ?_, (traced_run past).asked, fun r hr => ?_,
    fun id c hc status hphase => ?_⟩
  · simp [step, hnone]
  · obtain ⟨r', hr', hgrows⟩ := hsteps.store r hr
    have hstore : s'.store = some r' := hr'
    refine ⟨r', hr', hgrows.fanout, hgrows.approvers, hgrows.deadlineMillis, fun hdecided => ?_,
      fun happroved => ?_⟩
    · obtain rfl := hgrows.final hdecided
      refine ⟨rfl, fun now => ⟨?_, fun id c left hc hphase => ?_⟩⟩
      · simp [check, hstore, Record.effectiveStatus, hdecided]
      · simp [step, access, hc, hphase, hstore, Record.isDecided, hdecided, put]
    · obtain ⟨hresolved, hvoted⟩ := hs'.record r' hr'
      refine ⟨?_, hresolved.justified happroved fun a ha => (hvoted a ha).backed⟩
      by_contra hdenials
      have hdenied := (hs.record r hr).1.denied hdenials
      rw [hgrows.final (by simp [hdenied]), hdenied] at happroved
      cases happroved
  · have hanswered := (hs.answered id c hc).mono hsteps.store
    rcases hphase with hphase | hphase <;> rw [Answered, hphase] at hanswered
    · cases status with
      | pending =>
        obtain ⟨hvote, r', hr', hmem⟩ := hanswered
        exact ⟨r', hr', .inr ⟨rfl, hvote, hmem⟩⟩
      | _ =>
        obtain ⟨r', hr', hstatus⟩ := hanswered
        exact ⟨r', hr', .inl hstatus⟩
    · obtain ⟨r', hr', hstatus⟩ := hanswered
      exact ⟨r', hr', .inl hstatus⟩

theorem decisions_are_final_and_justified_requireAll :
    let past : List Event := [.ask .requireAll ["a", "b"] 100, .respond 0 "a" true,
      .respond 1 "b" true, .advance 0 5, .advance 1 6, .advance 0 7, .advance 1 8, .advance 1 9,
      .advance 1 10]
    let future : List Event := [.respond 2 "c" false, .advance 2 200]
    Asked past ⟨.approved, .requireAll, ["a", "b"], 100, ["a", "b"], []⟩ ∧
    (∀ a ∈ [("a" : Text), "b"], Backed (past ++ future)
      ⟨.approved, .requireAll, ["a", "b"], 100, ["a", "b"], []⟩ a) ∧
    (run (past ++ future)).check 300 = some .approved := by
  intro past future
  have hr : (run past).store =
      some ⟨.approved, .requireAll, ["a", "b"], 100, ["a", "b"], []⟩ := by decide
  obtain ⟨-, hasked, hlater, -⟩ := decisions_are_final_and_justified past future
  obtain ⟨r', -, -, -, -, hfinal, hbacked⟩ := hlater _ hr
  obtain ⟨rfl, hcheck⟩ := hfinal nofun
  refine ⟨hasked _ hr, ?_, (hcheck 300).1⟩
  rcases (hbacked rfl).2 with ⟨h | h, -⟩ | h
  · exact nomatch h
  · exact nomatch h
  · exact h

end Brokers
end Xolotl.Standard
