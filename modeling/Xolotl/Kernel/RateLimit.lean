import Xolotl.Types.Value

/-! The persistent sliding-window rate limit: concurrent evaluations on one account
through compare-and-swap writes. -/

namespace Xolotl.Kernel

open Xolotl.Types List

inductive PolicyDecision
  | allow
  | ask (approvalKey reason : Text)
  | deny (reason : Text)
  deriving DecidableEq, Repr

namespace RateLimit

structure RateLimitCheck where
  maxPerWindow : Nat
  windowMillis : Int64
  window_pos : 0 < windowMillis.toInt

def asInt : Value → Option Int64
  | .int n => some n
  | _ => none

def asList : Value → Option (List Value)
  | .list items => some items
  | _ => none

def timestamps : List Value → Except Text (List Int64)
  | [] => .ok []
  | value :: values =>
    match asInt value with
    | none => .error "expected integer timestamp"
    | some n => (timestamps values).map (n :: ·)

def decodeRateHits (value : Option Value) (window : Int64) : Except Text (List Int64) :=
  match value with
  | none => .ok []
  | some (.map members) =>
    let fields := Value.map members
    if members.length ≠ 3 ∨ (fields.get "version").bind asInt ≠ some 1 then
      .error "invalid rate-limit record format"
    else if (fields.get "window_millis").bind asInt ≠ some window then
      .error "rate-limit window changed; select a new scope or explicitly migrate its state"
    else
      match (fields.get "hits").bind asList with
      | none => .error "missing rate-limit timestamp list"
      | some hits => timestamps hits
  | some _ => .error "expected a rate-limit record"

def encodeRateHits (hits : List Int64) (window : Int64) : Value :=
  .map [("hits", .list (hits.map .int)), ("version", .int 1), ("window_millis", .int window)]

/-- Hits outside the window that ends at `now` are dropped; where the cutoff is
below every timestamp, none is. -/
def evict (now window : Int64) (hits : List Int64) : List Int64 :=
  let cutoff := now.toInt - window.toInt
  if cutoff < -2 ^ 63 then hits else hits.filter fun timestamp => cutoff < timestamp.toInt

def sortUnstable (hits : List Int64) : List Int64 :=
  hits.insertionSort fun a b => a.toInt ≤ b.toInt

inductive Considered
  | finish (decision : PolicyDecision)
  | write (new : Value) (decision : PolicyDecision)

def consider (check : RateLimitCheck) (now : Int64) (current : Option Value) : Considered :=
  match decodeRateHits current check.windowMillis with
  | .error reason => .finish (.deny ("rate limit state malformed: " ++ reason))
  | .ok hits =>
    let hits := sortUnstable (evict now check.windowMillis hits)
    if check.maxPerWindow ≤ hits.length then
      let new := encodeRateHits hits check.windowMillis
      if current = some new then .finish (.deny "rate limit exceeded")
      else .write new (.deny "rate limit exceeded")
    else
      .write (encodeRateHits (sortUnstable (hits ++ [now])) check.windowMillis) .allow

/-! ## Concurrent calls -/

def rateLimitCasAttempts : Nat := 16

inductive Phase
  | reading (attempts : Nat)
  | writing (attempts : Nat) (current : Option Value) (new : Value) (decision : PolicyDecision)
  | finished (decision : PolicyDecision)

structure Call where
  now : Int64
  phase : Phase

def admission (call : Call) : Option Int64 :=
  match call.phase with
  | .finished .allow => some call.now
  | _ => none

structure System where
  account : Option Value
  clock : Int64
  calls : List Call

inductive Action
  | sample (now : Int64)
  | read (i : Nat)
  | readFails (i : Nat) (error : Text)
  | write (i : Nat)
  /-- the backend reports another write error; the write may have been applied -/
  | writeFails (i : Nat) (error : Text) (applied : Bool)

namespace System

def setPhase (s : System) (i : Nat) (now : Int64) (phase : Phase) : System :=
  { s with calls := s.calls.set i ⟨now, phase⟩ }

def retry (attempts : Nat) : Phase :=
  if attempts + 1 < rateLimitCasAttempts then .reading (attempts + 1)
  else .finished (.deny "rate limit state contention")

def step (check : RateLimitCheck) (s : System) : Action → Option (System × Option Int64)
  | .sample now =>
    if s.clock.toInt ≤ now.toInt then
      some ({ s with clock := now, calls := s.calls ++ [⟨now, .reading 0⟩] }, none)
    else none
  | .read i =>
    match s.calls[i]? with
    | some ⟨now, .reading attempts⟩ =>
      match consider check now s.account with
      | .finish decision => some (s.setPhase i now (.finished decision), none)
      | .write new decision =>
        some (s.setPhase i now (.writing attempts s.account new decision), none)
    | _ => none
  | .readFails i error =>
    match s.calls[i]? with
    | some ⟨now, .reading _⟩ =>
      some (s.setPhase i now
        (.finished (.deny ("rate limit state read failed: " ++ error))), none)
    | _ => none
  | .write i =>
    match s.calls[i]? with
    | some ⟨now, .writing attempts current new decision⟩ =>
      if s.account = current then
        some ({ s with account := some new }.setPhase i now
          (.finished decision), some now)
      else some (s.setPhase i now (retry attempts), none)
    | _ => none
  | .writeFails i error applied =>
    match s.calls[i]? with
    | some ⟨now, .writing _ current new _⟩ =>
      let denied := Phase.finished (.deny ("rate limit state write failed: " ++ error))
      if applied = true ∧ s.account = current then
        some ({ s with account := some new }.setPhase i now denied, some now)
      else some (s.setPhase i now denied, none)
    | _ => none

def run (check : RateLimitCheck) (s : System) : List Action → Option (System × List Int64)
  | [] => some (s, [])
  | a :: as =>
    match s.step check a with
    | none => none
    | some (s', time) =>
      match s'.run check as with
      | none => none
      | some (s'', times) => some (s'', time.toList ++ times)

def allowed (s : System) : List Int64 := s.calls.filterMap admission

def admitted (s : System) (check : RateLimitCheck) (start : Int) : Nat :=
  s.allowed.countP fun t => start ≤ t.toInt && t.toInt < start + check.windowMillis.toInt

def idle (account : Option Value) (clock : Int64) : System := ⟨account, clock, []⟩

end System

/-! ## A stale sample overfills the window -/

def twoPerTen : RateLimitCheck := ⟨2, 10, by decide⟩

/-- Two admissions at 0 and 1; the call that sampled 5 writes after the call that
sampled 11 has evicted both. -/
def staleSample : List Action :=
  [.sample 0, .read 0, .write 0, .sample 1, .read 1, .write 1, .sample 5, .sample 11,
    .read 3, .write 3, .read 2, .write 2]

theorem stale_sample_overfills_window :
    ∃ s times, (System.idle none 0).run twoPerTen staleSample = some (s, times) ∧
      twoPerTen.maxPerWindow < s.admitted twoPerTen 0 := by
  have h : ((System.idle none 0).run twoPerTen staleSample).any
      (fun (s, _) => decide (twoPerTen.maxPerWindow < s.admitted twoPerTen 0)) = true := by
    decide +kernel
  cases hrun : (System.idle none 0).run twoPerTen staleSample with
  | none =>
    rw [hrun] at h
    cases h
  | some result =>
    rw [hrun] at h
    exact ⟨result.1, result.2, rfl, of_decide_eq_true h⟩

/-! ## Where no needed hit is evicted the window holds -/

theorem timestamps_map (hits : List Int64) : timestamps (hits.map .int) = .ok hits := by
  induction hits with
  | nil => rfl
  | cons n hits ih =>
    rw [map_cons, timestamps, ih]
    rfl

theorem decode_encode (hits : List Int64) (window : Int64) :
    decodeRateHits (some (encodeRateHits hits window)) window = .ok hits := by
  have hv : ((encodeRateHits hits window).get "version").bind asInt = some 1 := rfl
  have hw : ((encodeRateHits hits window).get "window_millis").bind asInt = some window := rfl
  have hh : ((encodeRateHits hits window).get "hits").bind asList = some (hits.map .int) := rfl
  rw [encodeRateHits] at hv hw hh ⊢
  simp only [decodeRateHits, hv, hw, hh, length_cons, length_nil, ne_eq,
    not_true_eq_false, or_self, if_false, timestamps_map]

theorem sortUnstable_perm (hits : List Int64) : (sortUnstable hits).Perm hits :=
  perm_insertionSort _ hits

def kept (check : RateLimitCheck) (now : Int64) (hits : List Int64) : List Int64 :=
  sortUnstable (evict now check.windowMillis hits)

variable {check : RateLimitCheck} {now : Int64} {new : Value} {decision : PolicyDecision}
  {s s' : System} {current : Option Value} {l hits final past future : List Int64}

theorem consider_write (h : consider check now current = .write new decision) :
    ∃ hits, decodeRateHits current check.windowMillis = .ok hits ∧
      ∃ written, decodeRateHits (some new) check.windowMillis = .ok written ∧
        (kept check now hits).Subperm written ∧
        (decision = .allow → (kept check now hits).length < check.maxPerWindow ∧
          (now :: kept check now hits).Subperm written) := by
  unfold consider at h
  split at h
  next => cases h
  next hits hd =>
    refine ⟨hits, hd, ?_⟩
    simp only at h
    split at h
    next =>
      split at h
      next => cases h
      next =>
        cases h
        exact ⟨_, decode_encode _ _, .refl _, nofun⟩
    next hlt =>
      cases h
      have ha : (now :: kept check now hits).Subperm
          (sortUnstable (kept check now hits ++ [now])) :=
        ((perm_append_singleton now _).symm.trans (sortUnstable_perm _).symm).subperm
      exact ⟨_, decode_encode _ _, (sublist_cons_self now _).subperm.trans ha,
        fun _ => ⟨Nat.lt_of_not_le hlt, ha⟩⟩

theorem consider_finish (h : consider check now current = .finish decision) :
    decision ≠ .allow := by
  unfold consider at h
  split at h
  next => cases h; nofun
  next =>
    simp only at h
    split at h
    next =>
      split at h
      next => cases h; nofun
      next => cases h
    next => cases h

theorem filter_subperm_kept (h : l.Subperm hits) :
    (l.filter fun t => now.toInt - check.windowMillis.toInt < t.toInt).Subperm
      (kept check now hits) := by
  refine List.Subperm.trans ?_ (sortUnstable_perm _).symm.subperm
  simp only [evict]
  split
  · exact (filter_sublist.subperm).trans h
  · exact h.filter _

section Calls

variable {α β : Type*} {f : α → Option β} {l : List α} {i : Nat} {a b : α}

theorem filterMap_set_none (ha : l[i]? = some a) (hfa : f a = none) (hfb : f b = none) :
    (l.set i b).filterMap f = l.filterMap f := by
  induction l generalizing i with
  | nil => cases ha
  | cons x l ih =>
    cases i with
    | zero =>
      obtain rfl : x = a := Option.some.inj ha
      rw [set_cons_zero, filterMap_cons_none hfb, filterMap_cons_none hfa]
    | succ i =>
      rw [set_cons_succ, filterMap_cons, filterMap_cons, ih ha]

theorem filterMap_set_some {c : β} (ha : l[i]? = some a) (hfa : f a = none) (hfb : f b = some c) :
    ((l.set i b).filterMap f).Perm (c :: l.filterMap f) := by
  induction l generalizing i with
  | nil => cases ha
  | cons x l ih =>
    cases i with
    | zero =>
      obtain rfl : x = a := Option.some.inj ha
      rw [set_cons_zero, filterMap_cons_some hfb, filterMap_cons_none hfa]
    | succ i =>
      rw [set_cons_succ, filterMap_cons, filterMap_cons]
      cases f x with
      | none => exact ih ha
      | some d => exact ((ih ha).cons d).trans (List.Perm.swap c d _)

variable {p : α → Bool} {live lost : List α}

theorem perm_filter_lost (h : l.Perm (live ++ lost)) :
    l.Perm (live.filter p ++ (live.filter (fun a => !p a) ++ lost)) := by
  rw [← append_assoc]
  exact h.trans ((filter_append_perm p live).symm.append_right lost)

theorem length_filter_live (h : l.Perm (live ++ lost)) (hp : ∀ a ∈ lost, ¬p a) :
    (l.filter p).length = (live.filter p).length := by
  rw [← countP_eq_length_filter, h.countP_eq, countP_append, countP_eq_zero.mpr hp,
    countP_eq_length_filter, Nat.add_zero]

end Calls

def System.applied (s : System) (i : Nat) (call : Call) (new : Value) (final : PolicyDecision) :
    System := { s with account := some new }.setPhase i call.now (.finished final)

/-- What a call is about to write is what it considered. -/
def Call.Planned (check : RateLimitCheck) (call : Call) : Prop :=
  ∀ attempts current new decision, call.phase = .writing attempts current new decision →
    consider check call.now current = .write new decision

inductive Acts (check : RateLimitCheck) (s : System) : System → Option Int64 → Prop
  | sample (now : Int64) :
      Acts check s { s with clock := now, calls := s.calls ++ [⟨now, .reading 0⟩] } none
  | move {i : Nat} {call : Call} (phase : Phase) (hget : s.calls[i]? = some call)
      (hopen : admission call = none) (hmoved : admission { call with phase } = none)
      (hplan : Call.Planned check { call with phase }) :
      Acts check s (s.setPhase i call.now phase) none
  | apply {i attempts : Nat} {call : Call} {new : Value} {decision : PolicyDecision}
      (final : PolicyDecision) (hget : s.calls[i]? = some call)
      (hphase : call.phase = .writing attempts s.account new decision)
      (hfinal : final = decision ∨ final ≠ .allow) :
      Acts check s (s.applied i call new final) (some call.now)

theorem admission_finished (h : decision ≠ .allow) :
    admission ⟨now, .finished decision⟩ = none := by
  cases decision with
  | allow => exact absurd rfl h
  | ask _ _ => rfl
  | deny _ => rfl

theorem acts_of_step {a : Action} {time : Option Int64}
    (h : s.step check a = some (s', time)) : Acts check s s' time := by
  cases a with
  | sample now =>
    simp only [System.step] at h
    split at h
    next => cases h; exact .sample now
    next => cases h
  | read i =>
    simp only [System.step] at h
    split at h
    next now attempts hg =>
      split at h
      next decision hc =>
        cases h
        exact .move _ hg rfl (admission_finished (consider_finish hc)) nofun
      next new decision hc =>
        cases h
        refine .move _ hg rfl rfl ?_
        rintro _ _ _ _ ⟨⟩
        exact hc
    next => cases h
  | readFails i error =>
    simp only [System.step] at h
    split at h
    next hg => cases h; exact .move _ hg rfl rfl nofun
    next => cases h
  | write i =>
    simp only [System.step] at h
    split at h
    next now attempts current new decision hg =>
      split at h
      next ha =>
        cases h
        subst ha
        exact .apply decision hg rfl (.inl rfl)
      next =>
        cases h
        refine .move (System.retry attempts) hg rfl ?_ ?_
        · unfold System.retry
          split <;> rfl
        · intro _ _ _ _ hr
          unfold System.retry at hr
          split at hr <;> cases hr
    next => cases h
  | writeFails i error applied =>
    simp only [System.step] at h
    split at h
    next now attempts current new decision hg =>
      split at h
      next hap =>
        cases h
        obtain ⟨-, ha⟩ := hap
        subst ha
        exact .apply _ hg rfl (.inr nofun)
      next => cases h; exact .move _ hg rfl rfl nofun
    next => cases h

/-- No applied write evicts the hit of an allowed call while an allowed call with the hit still in
its own window has yet to write. `times` are the samples of the writes in their order. -/
def Spared (check : RateLimitCheck) (allowed times : List Int64) : Prop :=
  ∀ hit evictor later, [hit, evictor, later] <+ times → hit ∈ allowed → later ∈ allowed →
    hit.toInt ≤ evictor.toInt - check.windowMillis.toInt →
      hit.toInt ≤ later.toInt - check.windowMillis.toInt

/-- Writes in the order of their samples evict only what later writes evict as well. -/
theorem spared_of_ordered {times : List Int64}
    (h : times.Pairwise fun a b => a.toInt ≤ b.toInt) : Spared check l times := by
  intro hit evictor later hs _ _ hevicted
  have hle : evictor.toInt ≤ later.toInt := by
    have hp := h.sublist hs
    simp only [pairwise_cons] at hp
    exact hp.2.1 later (mem_singleton_self later)
  omega

/-- What a run keeps: `past` are the samples of the writes so far, `future` those to come, and
`final` the calls that are allowed in the end. The lost hits are those no later call needs. -/
structure Kept (check : RateLimitCheck) (final past future : List Int64) (s : System) : Prop where
  planned : ∀ call ∈ s.calls, call.Planned check
  recorded : s.allowed ⊆ past
  stored : s.allowed ⊆ final → ∃ live lost, s.allowed.Perm (live ++ lost) ∧
    (∀ hits, decodeRateHits s.account check.windowMillis = .ok hits → live.Subperm hits) ∧
    ∀ hit ∈ lost, ∀ later ∈ future, later ∈ final →
      hit.toInt ≤ later.toInt - check.windowMillis.toInt
  bounded : s.allowed ⊆ final → ∀ start, s.admitted check start ≤ check.maxPerWindow

theorem kept_idle (check : RateLimitCheck) (account : Option Value) (clock : Int64)
    (final future : List Int64) : Kept check final [] future (System.idle account clock) where
  planned := by simp [System.idle]
  recorded := by simp [System.idle, System.allowed]
  stored _ := ⟨[], [], .refl _, fun _ _ => nil_subperm, nofun⟩
  bounded _ _ := Nat.zero_le _

theorem mem_setPhase {i : Nat} {phase : Phase} {call : Call}
    (h : call ∈ (s.setPhase i now phase).calls) : call ∈ s.calls ∨ call = ⟨now, phase⟩ :=
  mem_or_eq_of_mem_set h

theorem Kept.of_allowed (h : Kept check final past future s) (ha : s'.account = s.account)
    (hal : s'.allowed = s.allowed)
    (hp : ∀ call ∈ s'.calls, call ∈ s.calls ∨ call.Planned check) :
    Kept check final past future s' := by
  refine ⟨fun call hm => ?_, ?_, ?_, ?_⟩
  · exact (hp call hm).elim (h.planned call) id
  · rw [hal]
    exact h.recorded
  · rw [ha, hal]
    exact h.stored
  · simp only [System.admitted, hal]
    exact h.bounded

/-- Of the hits kept so far, a write loses those outside its own window, and no later call needs
them. -/
theorem Kept.apply {call : Call} (h : Kept check final past (call.now :: future) s)
    {i attempts : Nat} {decided : PolicyDecision} (hg : s.calls[i]? = some call)
    (hp : call.phase = .writing attempts s.account new decision)
    (hf : decided = decision ∨ decided ≠ .allow)
    (hsp : ∀ hit ∈ past, hit ∈ final → hit.toInt ≤ call.now.toInt - check.windowMillis.toInt →
      ∀ later ∈ future, later ∈ final → hit.toInt ≤ later.toInt - check.windowMillis.toInt) :
    Kept check final (past ++ [call.now]) future (s.applied i call new decided) := by
  have ho : admission call = none := by rw [admission, hp]
  obtain ⟨hits, hd, written, hwr, hsub, hal⟩ :=
    consider_write (h.planned call (mem_of_getElem? hg) _ _ _ _ hp)
  let inside : Int64 → Bool := fun t => call.now.toInt - check.windowMillis.toInt < t.toInt
  have hpl : ∀ call' ∈ (s.applied i call new decided).calls, call'.Planned check := by
    intro call' hm
    rcases mem_setPhase hm with hm | rfl
    · exact h.planned call' hm
    · nofun
  have hgone {live lost : List Int64} (hfin : s.allowed ⊆ final)
      (hperm : s.allowed.Perm (live ++ lost)) (hlost : ∀ hit ∈ lost, ∀ later ∈ call.now :: future,
        later ∈ final → hit.toInt ≤ later.toInt - check.windowMillis.toInt) :
      ∀ hit ∈ live.filter (fun t => !inside t) ++ lost, ∀ later ∈ future, later ∈ final →
        hit.toInt ≤ later.toInt - check.windowMillis.toInt := by
    intro hit hm later hla
    rcases mem_append.mp hm with hm | hm
    · obtain ⟨hm, hout⟩ := mem_filter.mp hm
      have hall : hit ∈ s.allowed := hperm.mem_iff.mpr (mem_append_left _ hm)
      exact hsp hit (h.recorded hall) (hfin hall) (by simpa [inside] using hout) later hla
    · exact hlost hit hm later (mem_cons_of_mem _ hla)
  by_cases ha : decided = .allow
  · subst ha
    obtain rfl : PolicyDecision.allow = decision := hf.resolve_right fun h => h rfl
    have hpe : (s.applied i call new .allow).allowed.Perm (call.now :: s.allowed) :=
      filterMap_set_some hg ho rfl
    have hall (hfinal : (s.applied i call new .allow).allowed ⊆ final) :
        call.now ∈ final ∧ s.allowed ⊆ final :=
      cons_subset.mp (Subset.trans hpe.symm.subset hfinal)
    refine ⟨hpl, ?_, fun hfinal => ?_, fun hfinal start => ?_⟩
    · refine Subset.trans hpe.subset (cons_subset.mpr ⟨by simp, ?_⟩)
      exact Subset.trans h.recorded (subset_append_left _ _)
    · obtain ⟨-, hfin⟩ := hall hfinal
      obtain ⟨live, lost, hperm, hlive, hlost⟩ := h.stored hfin
      have hk : (live.filter inside).Subperm (kept check call.now hits) :=
        filter_subperm_kept (hlive hits hd)
      refine ⟨call.now :: live.filter inside, _, hpe.trans ((perm_filter_lost hperm).cons _),
        fun hits' hd' => ?_, hgone hfin hperm hlost⟩
      obtain rfl := Except.ok.inj (hwr.symm.trans hd')
      exact ((subperm_cons call.now).mpr hk).trans (hal rfl).2
    · obtain ⟨hnow, hfin⟩ := hall hfinal
      obtain ⟨live, lost, hperm, hlive, hlost⟩ := h.stored hfin
      rw [System.admitted, hpe.countP_eq, countP_cons]
      split
      next hin =>
        simp only [Bool.and_eq_true, decide_eq_true_eq] at hin
        have hlt := (hal rfl).1
        refine (Nat.succ_le_succ (countP_mono_left (q := inside) fun t _ ht => ?_)).trans ?_
        · simp only [inside, Bool.and_eq_true, decide_eq_true_eq] at ht ⊢
          omega
        rw [countP_eq_length_filter]
        have heq := length_filter_live (p := inside) hperm fun hit hm => by
          simpa [inside] using hlost hit hm call.now mem_cons_self hnow
        have hl : (live.filter inside).length ≤ _ :=
          (filter_subperm_kept (hlive hits hd)).length_le
        omega
      next => exact h.bounded hfin start
  · have hs : (s.applied i call new decided).allowed = s.allowed :=
      filterMap_set_none hg ho (admission_finished ha)
    refine ⟨hpl, ?_, ?_, ?_⟩
    · rw [hs]
      exact Subset.trans h.recorded (subset_append_left _ _)
    · rw [hs]
      intro hfin
      obtain ⟨live, lost, hperm, hlive, hlost⟩ := h.stored hfin
      refine ⟨live.filter inside, _, perm_filter_lost hperm, fun hits' hd' => ?_,
        hgone hfin hperm hlost⟩
      obtain rfl := Except.ok.inj (hwr.symm.trans hd')
      exact (filter_subperm_kept (hlive hits hd)).trans hsub
    · simp only [System.admitted, hs]
      exact h.bounded

theorem Kept.acts {sampled : Option Int64}
    (h : Kept check final past (sampled.toList ++ future) s) (ha : Acts check s s' sampled)
    (hsp : Spared check final (past ++ (sampled.toList ++ future))) :
    Kept check final (past ++ sampled.toList) future s' := by
  cases ha with
  | sample now =>
    rw [Option.toList_none, append_nil]
    refine h.of_allowed rfl ?_ fun call hme => ?_
    · rw [System.allowed, filterMap_append]
      exact append_nil _
    · rcases mem_append.mp hme with hme | hme
      · exact .inl hme
      · rw [mem_singleton.mp hme]
        exact .inr nofun
  | move phase hg ho hm hpl =>
    rw [Option.toList_none, append_nil]
    refine h.of_allowed rfl (filterMap_set_none hg ho hm) fun call hme => ?_
    rcases mem_setPhase hme with hme | rfl
    · exact .inl hme
    · exact .inr hpl
  | @apply _ _ call _ _ decided hg hp hf =>
    refine h.apply hg hp hf fun hit hpa hfi hev later hla hlf => ?_
    have hsub : [hit] ++ [call.now, later] <+ past ++ call.now :: future :=
      (singleton_sublist.mpr hpa).append ((singleton_sublist.mpr hla).cons_cons _)
    exact hsp hit _ later hsub hfi hlf hev

theorem Kept.run {actions : List Action} {times : List Int64} (h : Kept check final past times s)
    (hru : s.run check actions = some (s', times)) (hsp : Spared check final (past ++ times)) :
    Kept check final (past ++ times) [] s' := by
  induction actions generalizing s past times with
  | nil =>
    cases hru
    rwa [append_nil]
  | cons a actions ih =>
    rw [System.run] at hru
    split at hru
    next => cases hru
    next s₁ sampled hs =>
      split at hru
      next => cases hru
      next s₂ times' hr =>
        cases hru
        rw [← append_assoc]
        refine ih (h.acts (acts_of_step hs) hsp) hr ?_
        rwa [append_assoc]

/-- If no write evicts a hit that an allowed call with an older sample still needs, no window of
the clock contains more admissions than the limit. -/
theorem window_holds_for_spared_hits {check : RateLimitCheck} {account : Option Value}
    {clock : Int64} {actions : List Action} {s : System} {times : List Int64}
    (hrun : (System.idle account clock).run check actions = some (s, times))
    (hspared : Spared check s.allowed times) (start : Int) :
    s.admitted check start ≤ check.maxPerWindow :=
  ((kept_idle check account clock s.allowed times).run hrun hspared).bounded (Subset.refl _) start

/-- Two calls race for the same account value and the one with the older sample loses, retries
and is admitted second; the hit evicted meanwhile is outside its window too. A last call finds
the window full. -/
def contended : List Action :=
  [.sample 0, .read 0, .write 0, .sample 25, .sample 30, .read 1, .read 2, .write 2, .write 1,
    .read 1, .write 1, .sample 31, .read 3]

theorem window_holds_for_spared_hits_contended :
    ∃ s times, (System.idle none 0).run twoPerTen contended = some (s, times) ∧
      times = [0, 30, 25] ∧ s.admitted twoPerTen 21 ≤ twoPerTen.maxPerWindow := by
  have h : ((System.idle none 0).run twoPerTen contended).map Prod.snd = some [0, 30, 25] := by
    decide +kernel
  obtain ⟨⟨s, times⟩, hrun, htimes⟩ := Option.map_eq_some_iff.mp h
  obtain rfl : times = [0, 30, 25] := htimes
  refine ⟨s, _, hrun, rfl, window_holds_for_spared_hits hrun ?_ 21⟩
  intro hit evictor later hsub _ _ _
  cases hsub.eq_of_length rfl
  decide

end RateLimit

end Xolotl.Kernel
