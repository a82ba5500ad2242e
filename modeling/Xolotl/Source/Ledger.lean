import Xolotl.Source.Scopes

/-! The ledger of accepted commits: what the private maps still know about every acceptance, and
what follows for the order and the repetition of acceptances. -/

namespace Xolotl.Source

open Xolotl.Types Xolotl.State Word Window List OrderedMap

variable {host : Host} {options : InMemoryOptions} {m m' : SourceMemory} {log new : List Acceptance}

namespace Acceptance

def scope (a : Acceptance) : ScopeName := a.request.claim.scope

def name (a : Acceptance) : EventName := a.request.claim.name

def expiresAtMs (a : Acceptance) : Int := eventExpiresAt a.decisionAtMs a.request.dedupeWindowMs

def seqIn (epoch : UInt64) (a : Acceptance) : Option Nat :=
  a.request.stream.bind fun s => if s.streamEpoch = epoch then some s.seq.toNat else none

end Acceptance

/-! ## Decisions and times -/

/-- What is known about the accepted commits of active scopes: none lies after the floor, and each
decision is behind the floor or covered by a retained one. -/
structure Logged (log : List Acceptance) (m : SourceMemory) : Prop where
  valid : ∀ a ∈ log, a.name.Valid
  drawn : ∀ a ∈ log, a.scope.epoch ≤ m.nextAuthorityEpoch
  floor : ∀ a ∈ log, m.Active a.scope →
    ∃ floor, m.floor a.scope = some floor ∧ a.decisionAtMs ≤ floor
  decided : ∀ a ∈ log, m.Active a.scope →
    (∃ floor, m.floor a.scope = some floor ∧ a.expiresAtMs < floor) ∨
      ∃ record, m.events.get a.name.key = some record ∧ a.expiresAtMs ≤ record.expiresAtMs
  ordered : log.Pairwise fun a b => a.scope = b.scope → a.decisionAtMs ≤ b.decisionAtMs
  once : log.Pairwise fun a b => a.name = b.name → a.expiresAtMs < b.decisionAtMs

theorem logged_nil (m : SourceMemory) : Logged [] m :=
  ⟨forall_mem_nil _, forall_mem_nil _, forall_mem_nil _, forall_mem_nil _, .nil, .nil⟩

theorem Logged.keep (h : Logged log m) (hfe : Fenced m) (hc : Change host options m new m') :
    Logged log m' := by
  have hm := (hc.draws hfe.stamped).mono
  refine ⟨h.valid, fun a ha => (h.drawn a ha).trans hm, fun a ha hac => ?_,
    fun a ha hac => ?_, h.ordered, h.once⟩
  · have hk := hc.scope_kept hfe (h.drawn a ha) hac
    obtain ⟨floor, hf, hle⟩ := h.floor a ha hk.active
    obtain ⟨floor', hf', hr⟩ := hk.floor floor hf
    exact ⟨floor', hf', hle.trans hr⟩
  · have hk := hc.scope_kept hfe (h.drawn a ha) hac
    rcases h.decided a ha hk.active with ⟨floor, hf, hlt⟩ | ⟨record, hre, hle⟩
    · obtain ⟨floor', hf', hr⟩ := hk.floor floor hf
      exact .inl ⟨floor', hf', hlt.trans_le hr⟩
    · rcases hc.event_kept (h.valid a ha) hac hre with hs | ⟨floor, hf, hlt⟩
      · exact .inr ⟨record, hs, hle⟩
      · exact .inl ⟨floor, hf, hle.trans_lt hlt⟩

variable {request : SourceCommit} {decisionAtMs : Int} {a : Acceptance} {epoch : UInt64}

theorem Admitted.active
    (h : Admitted options m request decisionAtMs) : m.Active request.claim.scope := by
  obtain ⟨source, hd, -⟩ := h.declared
  exact SourceMemory.scopeEpoch_of_declared hd

theorem Admitted.drawn (hs : m.Stamped) (h : Admitted options m request decisionAtMs) :
    request.claim.scope.epoch ≤ m.nextAuthorityEpoch :=
  hs.bounded (.scope _ _) _ h.active

theorem Logged.precedes (h : Logged log m)
    (had : Admitted options m request decisionAtMs) (ha : a ∈ log) :
    (a.scope = request.claim.scope → a.decisionAtMs ≤ decisionAtMs) ∧
      (a.name = request.claim.name → a.expiresAtMs < decisionAtMs) := by
  constructor
  · intro hs
    obtain ⟨floor, hf, hle⟩ := h.floor a ha (hs ▸ had.active)
    rw [hs] at hf
    exact hle.trans (had.floor floor hf)
  · intro hn
    have hs : a.scope = request.claim.scope := congrArg EventName.scope hn
    rcases h.decided a ha (hs ▸ had.active) with ⟨floor, hf, hlt⟩ | ⟨record, hr, hle⟩
    · rw [hs] at hf
      exact hlt.trans_le (had.floor floor hf)
    · rw [hn] at hr
      exact hle.trans_lt (had.expired record hr)

theorem Change.logged (hc : Change host options m new m') (hf : Fenced m)
    (h : Logged log m) : Logged (log ++ new) m' := by
  have hk := h.keep hf hc
  cases hc with
  | @accept request decisionAtMs digest had =>
    have hp : ∀ a ∈ log, ∀ b ∈ [Acceptance.mk request decisionAtMs],
        (a.scope = b.scope → a.decisionAtMs ≤ b.decisionAtMs) ∧
          (a.name = b.name → a.expiresAtMs < b.decisionAtMs) := by
      intro a ha b hb
      rw [mem_singleton.mp hb]
      exact h.precedes had ha
    refine ⟨?_, ?_, ?_, ?_, ?_, ?_⟩
    · exact forall_mem_append.mpr ⟨hk.valid, forall_mem_singleton.mpr had.valid⟩
    · have hd := had.drawn hf.stamped
      exact forall_mem_append.mpr ⟨hk.drawn, forall_mem_singleton.mpr hd⟩
    · refine forall_mem_append.mpr ⟨hk.floor, forall_mem_singleton.mpr fun _ => ?_⟩
      exact ⟨decisionAtMs, get_insert_self _ _ _, le_rfl⟩
    · refine forall_mem_append.mpr ⟨hk.decided, forall_mem_singleton.mpr fun _ => ?_⟩
      exact .inr ⟨_, get_insert_self _ _ _, le_rfl⟩
    · exact pairwise_append.mpr ⟨h.ordered, pairwise_singleton _ _,
        fun a ha b hb => (hp a ha b hb).1⟩
    · exact pairwise_append.mpr ⟨h.once, pairwise_singleton _ _,
        fun a ha b hb => (hp a ha b hb).2⟩
  | none => exact (append_nil log).symm ▸ hk
  | openStream | retireStream | install | uninstall | maintain => exact (append_nil log).symm ▸ hk

/-! ## Sequence numbers -/

def seqsIn (epoch : UInt64) (log : List Acceptance) : List Nat :=
  log.filterMap (Acceptance.seqIn epoch)

/-- The numbers of each incarnation count up from one, and an open row holds the last of them. -/
structure Numbered (log : List Acceptance) (m : SourceMemory) : Prop where
  drawn : ∀ a ∈ log, ∀ s ∈ a.request.stream, s.streamEpoch ≤ m.nextAuthorityEpoch
  position : ∀ name row, name.Named → m.streamAt name = some row →
    row.lastSeq.toNat = (seqsIn row.streamEpoch log).length
  counted : ∀ epoch, seqsIn epoch log = List.range' 1 (seqsIn epoch log).length

theorem seqIn_ne (h : ∀ s ∈ a.request.stream, s.streamEpoch ≠ epoch) : a.seqIn epoch = none := by
  unfold Acceptance.seqIn
  cases hs : a.request.stream with
  | none => rfl
  | some s => exact if_neg (h s hs)

theorem seqsIn_append_ne (h : ∀ s ∈ a.request.stream, s.streamEpoch ≠ epoch) :
    seqsIn epoch (log ++ [a]) = seqsIn epoch log := by
  rw [seqsIn, filterMap_append, filterMap_cons_none (seqIn_ne h), filterMap_nil, append_nil, seqsIn]

variable (log) in
theorem seqsIn_append_self {s : SourceStreamPosition} (h : a.request.stream = some s) :
    seqsIn s.streamEpoch (log ++ [a]) = seqsIn s.streamEpoch log ++ [s.seq.toNat] := by
  have hs : a.seqIn s.streamEpoch = some s.seq.toNat := by
    rw [Acceptance.seqIn, h]
    exact if_pos rfl
  rw [seqsIn, filterMap_append, filterMap_cons_some hs, filterMap_nil, seqsIn]

theorem Numbered.seqsIn_fresh (h : Numbered log m)
    (hf : m.nextAuthorityEpoch < epoch) : seqsIn epoch log = [] := by
  refine filterMap_eq_nil_iff.mpr fun a ha => seqIn_ne fun s hs heq => ?_
  exact absurd (heq ▸ h.drawn a ha s hs) (not_le.mpr hf)

theorem Numbered.keep (h : Numbered log m) (hm : m.nextAuthorityEpoch ≤ m'.nextAuthorityEpoch)
    (hr : ∀ name row, name.Named → m'.streamAt name = some row →
      m.streamAt name = some row ∨ m.nextAuthorityEpoch < row.streamEpoch ∧ row.lastSeq = 0) :
    Numbered log m' := by
  refine ⟨fun a ha s hs => (h.drawn a ha s hs).trans hm, fun name row hn hro => ?_, h.counted⟩
  rcases hr name row hn hro with hold | ⟨hf, hzero⟩
  · exact h.position name row hn hold
  · rw [h.seqsIn_fresh hf, hzero]
    rfl

theorem advanced_some {s : SourceStreamPosition} {row : SourceStreamState}
    (h : request.stream = some s) (hr : m.streamAt ⟨request.claim.scope, s.streamId⟩ = some row) :
    advanced m request = m.sequences.insert (StreamName.key ⟨request.claim.scope, s.streamId⟩)
      { row with lastSeq := s.seq } := by
  have hg : m.sequences.get (StreamName.key ⟨request.claim.scope, s.streamId⟩) = some row := hr
  rw [advanced, h]
  simp only [hg]

theorem numbered_accept (hst : m.Stamped) (h : Numbered log m) (digest : Bytes)
    (ha : Admitted options m request decisionAtMs) :
    Numbered (log ++ [⟨request, decisionAtMs⟩]) (acceptedSource m request digest decisionAtMs) := by
  cases hsr : request.stream with
  | none =>
    have hne : ∀ epoch, ∀ s ∈ (Acceptance.mk request decisionAtMs).request.stream,
        s.streamEpoch ≠ epoch := by
      intro epoch s hs
      rw [hsr] at hs
      cases hs
    refine ⟨forall_mem_append.mpr ⟨h.drawn, forall_mem_singleton.mpr fun s hs => ?_⟩,
      fun name row hn hr => ?_, fun epoch => ?_⟩
    · exact absurd rfl (hne _ s hs)
    · rw [acceptedSource, advanced, hsr] at hr
      rw [seqsIn_append_ne (hne _)]
      exact h.position name row hn hr
    · rw [seqsIn_append_ne (hne _)]
      exact h.counted epoch
  | some s =>
    obtain ⟨row, hr, hep, hnt⟩ := ha.position s hsr
    have hn : (StreamName.mk request.claim.scope s.streamId).Named :=
      ⟨ha.valid.1.1, ha.streamId s hsr⟩
    have hlast := h.position _ row hn hr
    have hsq : s.seq.toNat = (seqsIn s.streamEpoch log).length + 1 := by
      rw [toNat_of_checkedAdd hnt, hlast, hep]
      rfl
    have hse := seqsIn_append_self log (a := ⟨request, decisionAtMs⟩) hsr
    have ho : ∀ epoch, epoch ≠ s.streamEpoch →
        seqsIn epoch (log ++ [⟨request, decisionAtMs⟩]) = seqsIn epoch log := by
      intro epoch hne
      refine seqsIn_append_ne fun other hm heq => hne ?_
      cases hsr.symm.trans hm
      exact heq.symm
    have hp : m.epochAt (.stream (StreamName.key ⟨request.claim.scope, s.streamId⟩)) =
        some s.streamEpoch := by
      rw [← hep]
      exact congrArg (Option.map SourceStreamState.streamEpoch) hr
    refine ⟨forall_mem_append.mpr ⟨h.drawn, forall_mem_singleton.mpr fun other hm => ?_⟩,
      fun name row' hn' hr' => ?_, fun epoch => ?_⟩
    · cases hsr.symm.trans hm
      exact hst.bounded _ _ hp
    · rw [SourceMemory.streamAt, acceptedSource, advanced_some hsr hr, get_insert] at hr'
      split at hr'
      next =>
        cases hr'
        rw [hep, hse, length_append, hsq]
        rfl
      next hk =>
        have hne : row'.streamEpoch ≠ s.streamEpoch := by
          intro heq
          have hp' : m.epochAt (.stream name.key) = some s.streamEpoch := by
            rw [← heq]
            exact congrArg (Option.map SourceStreamState.streamEpoch) hr'
          exact hk (Place.stream.inj (hst.unique _ _ _ hp hp'))
        rw [ho _ hne]
        exact h.position name row' hn' hr'
    · by_cases heq : epoch = s.streamEpoch
      · rw [heq, hse, length_append, length_singleton, List.range'_1_concat, hsq,
          ← h.counted s.streamEpoch, Nat.add_comm 1]
      · rw [ho epoch heq]
        exact h.counted epoch

theorem Change.numbered (hc : Change host options m new m') (hf : Fenced m)
    (h : Numbered log m) : Numbered (log ++ new) m' := by
  have hm := (hc.draws hf.stamped).mono
  cases hc with
  | accept digest ha => exact numbered_accept hf.stamped h digest ha
  | none => exact (append_nil log).symm ▸ h
  | @openStream request nextEpoch nextRevision ho =>
    rw [append_nil]
    refine h.keep hm fun name row hn hr => ?_
    rw [SourceMemory.streamAt, SourceMemory.opened, get_insert] at hr
    split at hr
    next =>
      cases hr
      exact .inr ⟨lt_of_checkedAdd_one ho.epoch, rfl⟩
    next => exact .inl hr
  | retireStream =>
    rw [append_nil]
    exact h.keep hm fun name row _ hr => .inl (get_of_get_erase hr).2
  | install | uninstall =>
    rw [append_nil]
    exact h.keep hm fun name row _ hr => .inl hr
  | maintain =>
    rw [append_nil]
    exact h.keep hm fun name row _ hr => .inl (streamAt_maintain hr)

/-! ## Whole histories -/

variable (host options) in
theorem logged_run {st : MemoryState} (hs : st.journal.source = .empty) (calls : List Call) :
    Fenced (run host options st calls).journal.source ∧
      Logged (accepted host options st calls) (run host options st calls).journal.source ∧
      Numbered (accepted host options st calls) (run host options st calls).journal.source := by
  have hn : Numbered [] st.journal.source := hs ▸ ⟨forall_mem_nil _, nofun, fun _ => rfl⟩
  refine Machine.collect_invariant (l := []) (I := fun log (st : MemoryState) =>
    Fenced st.journal.source ∧ Logged log st.journal.source ∧ Numbered log st.journal.source)
    ?_ ⟨hs ▸ fenced_empty, logged_nil _, hn⟩ calls
  rintro log st call ⟨hf, hl, hn⟩
  have hc := step_change host options st call
  exact ⟨hc.fenced hf, hc.logged hf hl, hc.numbered hf hn⟩

end Xolotl.Source
