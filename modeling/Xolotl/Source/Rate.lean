import Xolotl.Source.Ledger

/-! Rate limits: the hits of a scope recall its accepted times from the floor on, so that every
window of the rule stays within its quota, whatever the clock and maintenance do. -/

namespace Xolotl.Source

open Xolotl.Types Xolotl.State Word Window List SourceMemory

variable {host : Host} {options : InMemoryOptions} {m m' : SourceMemory} {log new : List Acceptance}
  {scope : ScopeName}

def timesOf (scope : ScopeName) (log : List Acceptance) : List Int :=
  (log.filter fun a => a.scope = scope).map Acceptance.decisionAtMs

def SourceMemory.hits (m : SourceMemory) (scope : ScopeName) : List Int :=
  ((m.rates.get (scope.key kindRate)).map RateRecord.hits).getD []

theorem timesOf_append (scope : ScopeName) (log new : List Acceptance) :
    timesOf scope (log ++ new) = timesOf scope log ++ timesOf scope new := by
  rw [timesOf, filter_append, map_append, timesOf, timesOf]

theorem timesOf_eq_nil (h : ∀ a ∈ log, a.scope ≠ scope) : timesOf scope log = [] := by
  rw [timesOf, filter_eq_nil_iff.mpr fun a ha => by simpa using h a ha, map_nil]

/-! ## The invariant -/

structure Fits (m : SourceMemory) (scope : ScopeName) (rule : SourceRateLimit) : Prop where
  window : ∀ record ∈ m.rates.get (scope.key kindRate), record.windowMs = rule.windowMs
  sorted : (m.hits scope).Pairwise (· ≤ ·)
  past : ∀ hit ∈ m.hits scope, ∃ floor, m.floor scope = some floor ∧ hit ≤ floor

structure Metered (scope : ScopeName) (log : List Acceptance) (m : SourceMemory) : Prop where
  placed : ∀ record, m.rates.get (scope.key kindRate) = some record →
    scope.epoch ≤ m.nextAuthorityEpoch
  governed : ∀ source, m.declared scope = some source → ∀ a ∈ log, a.scope = scope →
    a.request.rateLimit = source.rateLimit
  recalled : ∀ source rule, m.declared scope = some source → source.rateLimit = some rule →
    Fits m scope rule ∧
      Recalls rule.windowMs.toNat (m.floor scope) (timesOf scope log) (m.hits scope)
  bounded : ∀ rule : SourceRateLimit,
    (∀ a ∈ log, a.scope = scope → a.request.rateLimit = some rule) →
    ∀ start, (within rule.windowMs.toNat start (timesOf scope log)).length ≤ rule.maxEvents.toNat

/-! ## Steps without an acceptance of the scope -/

variable {record : RateRecord} {rule : SourceRateLimit}

theorem Change.rate_placed (h : Change host options m new m') (hn : scope.Named)
    (ho : ∀ a ∈ new, a.scope ≠ scope) (hg : m'.rates.get (scope.key kindRate) = some record) :
    m.rates.get (scope.key kindRate) = some record := by
  cases h with
  | none => exact hg
  | @accept request decisionAtMs digest h =>
    rcases rated_get hg with hold | hk
    · exact hold
    · exact absurd (ScopeName.key_inj hn h.valid.1.1 hk).symm (ho _ mem_cons_self)
  | openStream | retireStream | install | uninstall => exact hg
  | maintain decisionAtMs limit =>
    revert hg
    refine maintain_invariant (I := fun m₁ =>
      m₁.rates.get (scope.key kindRate) = some record →
        m.rates.get (scope.key kindRate) = some record) (fun h => h) (fun _ _ _ h => h) ?_
      (fun _ _ h => h)
    intro _ _ m₁ m₂ key _ _ _ _ hm₁ hc hg
    cases hc with
    | none | event | stream => exact hm₁ hg
    | rate => exact hm₁ (OrderedMap.get_of_get_erase hg).2

theorem declared_active {source : EventSource} (h : m.declared scope = some source) :
    m.Active scope := scopeEpoch_of_declared h

theorem hits_of_get (h : m.rates.get (scope.key kindRate) = some record) :
    m.hits scope = record.hits := by
  rw [hits, h]
  rfl

theorem hits_of_none (h : m.rates.get (scope.key kindRate) = none) : m.hits scope = [] := by
  rw [hits, h]
  rfl

theorem fits_of_none (h : m.rates.get (scope.key kindRate) = none) : Fits m scope rule := by
  refine ⟨?_, ?_, ?_⟩
  · rw [h]
    exact nofun
  · rw [hits_of_none h]
    exact .nil
  · rw [hits_of_none h]
    exact nofun

theorem Fits.rise (h : Fits m scope rule)
    (hs : m'.rates.get (scope.key kindRate) = m.rates.get (scope.key kindRate))
    (hf : Rises (m.floor scope) (m'.floor scope)) : Fits m' scope rule := by
  have hh : m'.hits scope = m.hits scope := by rw [hits, hs, hits]
  refine ⟨hs ▸ h.window, hh ▸ h.sorted, fun hit hhi => ?_⟩
  obtain ⟨floor, hg, hle⟩ := h.past hit (hh ▸ hhi)
  obtain ⟨floor', hg', hr⟩ := hf floor hg
  exact ⟨floor', hg', hle.trans hr⟩

theorem Fits.idle (h : Fits m scope rule)
    (hg : m.rates.get (scope.key kindRate) = some record) {now : Int}
    (he : record.expired now = true) :
    ∀ hit ∈ m.hits scope, hit ≤ now - rule.windowMs.toNat := by
  have hs := h.sorted
  rw [hits_of_get hg] at hs ⊢
  intro hit hh
  unfold RateRecord.expired at he
  cases hlast : record.hits.getLast? with
  | none =>
    rw [List.getLast?_eq_none_iff.mp hlast] at hh
    cases hh
  | some last =>
    rw [hlast, Option.all_some, decide_eq_true_iff, h.window record hg] at he
    obtain ⟨front, hf⟩ := List.getLast?_eq_some_iff.mp hlast
    rw [hf] at hs hh
    have hle : hit ≤ last := by
      rcases mem_append.mp hh with hm | hm
      · exact (pairwise_append.mp hs).2.2 hit hm last mem_cons_self
      · exact le_of_eq (mem_singleton.mp hm)
    omega

theorem Metered.keep (h : Metered scope log m) (hfe : Fenced m) (hl : Logged log m)
    (hna : scope.Named) (hep : scope.epoch ≠ 0) (hc : Change host options m new m')
    (ho : ∀ a ∈ new, a.scope ≠ scope) : Metered scope log m' := by
  have hm := (hc.draws hfe.stamped).mono
  refine ⟨fun record hg => ?_, fun source hde => ?_, fun source rule hde hru => ?_, h.bounded⟩
  · exact (h.placed record (hc.rate_placed hna ho hg)).trans hm
  · by_cases hd : scope.epoch ≤ m.nextAuthorityEpoch
    · have hk := hc.scope_kept hfe hd (declared_active hde)
      exact h.governed source (hk.declared ▸ hde)
    · exact fun a ha hs => absurd (hs ▸ hl.drawn a ha) hd
  · by_cases hd : scope.epoch ≤ m.nextAuthorityEpoch
    · have hk := hc.scope_kept hfe hd (declared_active hde)
      obtain ⟨hfi, hr⟩ := h.recalled source rule (hk.declared ▸ hde) hru
      rcases hc.rate_kept hna hep (declared_active hde) ho with
        hsa | ⟨record, floor, hg, hn, hfl, he⟩
      · rw [hits, hsa]
        exact ⟨hfi.rise hsa hk.floor, hr.raise hk.floor⟩
      · have hb : ∀ f ∈ m.floor scope, f ≤ floor := by
          intro f hf
          obtain ⟨f', hf', hle⟩ := hk.floor f hf
          cases hfl.symm.trans hf'
          exact hle
        rw [hfl, hits_of_none hn]
        exact ⟨fits_of_none hn, hr.forget hb (hfi.idle hg he)⟩
    · -- a scope that did not exist before has neither acceptances nor a record
      have ht : timesOf scope log = [] := timesOf_eq_nil fun a ha hs => hd (hs ▸ hl.drawn a ha)
      have hn : m'.rates.get (scope.key kindRate) = none :=
        Option.eq_none_iff_forall_ne_some.mpr fun record hg =>
          hd (h.placed record (hc.rate_placed hna ho hg))
      rw [ht, hits_of_none hn]
      exact ⟨fits_of_none hn, fun _ _ => rfl⟩

/-! ## Acceptances of the scope -/

theorem hitAt_hits {now : Int} (hf : Fits m scope rule)
    (hp : ∀ hit ∈ m.hits scope, hit ≤ now) :
    (hitAt (m.rates.get (scope.key kindRate)) rule now).hits =
      Window.after (now - rule.windowMs.toNat) (m.hits scope) ++ [now] := by
  have ha : ∀ hits : List Int, (∀ hit ∈ hits, hit ≤ now) →
      hits.takeWhile (· ≤ now) ++ now :: hits.dropWhile (· ≤ now) = hits ++ [now] := by
    intro hits h
    rw [takeWhile_eq_self_iff.mpr fun hit hh => decide_eq_true (h hit hh),
      dropWhile_eq_nil_iff.mpr fun hit hh => decide_eq_true (h hit hh)]
  unfold hitAt
  cases hg : m.rates.get (scope.key kindRate) with
  | none =>
    rw [hits_of_none hg]
    rfl
  | some record =>
    rw [hits_of_get hg] at hp ⊢
    simp only [if_pos (hf.window record hg)]
    exact ha _ fun hit hh => hp hit (mem_of_mem_filter hh)

theorem retainedHits_eq (hf : Fits m scope rule) (start : Int) :
    retainedHits m rule (scope.key kindRate) start =
      (Window.after start (m.hits scope)).length := by
  unfold retainedHits
  cases hg : m.rates.get (scope.key kindRate) with
  | none =>
    rw [hits_of_none hg]
    rfl
  | some record =>
    rw [hits_of_get hg]
    exact if_pos (hf.window record hg)

theorem metered_accept {request : SourceCommit} {decisionAtMs : Int} (digest : Bytes)
    (h : Metered request.claim.scope log m) (hs : m.Stamped)
    (had : Admitted options m request decisionAtMs) :
    Metered request.claim.scope (log ++ [⟨request, decisionAtMs⟩])
      (acceptedSource m request digest decisionAtMs) := by
  obtain ⟨source, hd, -, -, hli⟩ := had.declared
  have ht : timesOf request.claim.scope (log ++ [⟨request, decisionAtMs⟩]) =
      timesOf request.claim.scope log ++ [decisionAtMs] := by
    simp [timesOf, Acceptance.scope]
  have hfl : (acceptedSource m request digest decisionAtMs).floor request.claim.scope =
      some decisionAtMs := OrderedMap.get_insert_self _ _ _
  have hdr := had.drawn hs
  refine ⟨fun _ _ => hdr, fun other ho => ?_, fun other rule ho hre => ?_,
    fun rule hru start => ?_⟩
  · cases hd.symm.trans ho
    refine forall_mem_append.mpr ⟨h.governed source hd, ?_⟩
    exact forall_mem_singleton.mpr fun _ => hli.symm
  · cases hd.symm.trans ho
    obtain ⟨hfi, hr⟩ := h.recalled source rule hd hre
    have hp : ∀ hit ∈ m.hits request.claim.scope, hit ≤ decisionAtMs := by
      intro hit hhi
      obtain ⟨floor, hat, hle⟩ := hfi.past hit hhi
      exact hle.trans (had.floor floor hat)
    have hg : (acceptedSource m request digest decisionAtMs).rates.get
        (request.claim.scope.key kindRate) =
        some (hitAt (m.rates.get (request.claim.scope.key kindRate)) rule decisionAtMs) := by
      have hrq : request.rateLimit = some rule := hli.symm.trans hre
      unfold acceptedSource rated
      simp only [hrq, OrderedMap.get_insert_self]
    have hh : (acceptedSource m request digest decisionAtMs).hits request.claim.scope =
        Window.after (decisionAtMs - rule.windowMs.toNat) (m.hits request.claim.scope) ++
          [decisionAtMs] := (hits_of_get hg).trans (hitAt_hits hfi hp)
    have hl : ∀ hit ∈ Window.after (decisionAtMs - rule.windowMs.toNat)
        (m.hits request.claim.scope),
        hit ≤ decisionAtMs := fun hit hhi => hp hit (mem_of_mem_filter hhi)
    refine ⟨⟨fun record hrc => ?_, ?_, ?_⟩, ?_⟩
    · cases hg.symm.trans hrc
      rfl
    · rw [hh]
      refine pairwise_append.mpr ⟨hfi.sorted.filter _, pairwise_singleton _ _, ?_⟩
      exact fun hit hhi now hn => mem_singleton.mp hn ▸ hl hit hhi
    · rw [hh, hfl]
      refine fun hit hhi => ⟨decisionAtMs, rfl, ?_⟩
      rcases mem_append.mp hhi with hm | hm
      · exact hl hit hm
      · exact le_of_eq (mem_singleton.mp hm)
    · rw [ht, hh, hfl]
      exact hr.append had.floor
  · have hlast : request.rateLimit = some rule :=
      hru ⟨request, decisionAtMs⟩ (mem_append_right _ mem_cons_self) rfl
    obtain ⟨hfi, hr⟩ := h.recalled source rule hd (hli.trans hlast)
    have hq := had.rate rule hlast
    rw [retainedHits_eq hfi] at hq
    have hsa := hr (decisionAtMs - rule.windowMs.toNat) fun f hf =>
      Int.sub_le_sub_right (had.floor f hf) _
    rw [ht]
    refine length_within_append ?_ (hsa ▸ hq) start
    exact h.bounded rule fun a ha => hru a (mem_append_left _ ha)

theorem Change.metered (hc : Change host options m new m') (hf : Fenced m)
    (hl : Logged log m) (hn : scope.Named) (hep : scope.epoch ≠ 0)
    (h : Metered scope log m) : Metered scope (log ++ new) m' := by
  by_cases ho : ∀ a ∈ new, a.scope ≠ scope
  · have hk := h.keep hf hl hn hep hc ho
    have ht : timesOf scope (log ++ new) = timesOf scope log := by
      rw [timesOf_append, timesOf_eq_nil ho, append_nil]
    refine ⟨hk.placed, fun source hd a ha hs => ?_, ht ▸ hk.recalled, ?_⟩
    · rcases mem_append.mp ha with hold | hnw
      · exact hk.governed source hd a hold hs
      · exact absurd hs (ho a hnw)
    · rw [ht]
      exact fun rule hr => hk.bounded rule fun a ha => hr a (mem_append_left _ ha)
  · cases hc with
    | @accept request decisionAtMs digest had =>
      have hs : request.claim.scope = scope := by
        by_contra hne
        exact ho fun a ha => by rw [mem_singleton.mp ha]; exact hne
      subst hs
      exact metered_accept digest h hf.stamped had
    | _ => exact absurd (forall_mem_nil _) ho

theorem Change.under_rule (hc : Change host options m new m') :
    ∀ a ∈ new, ∃ source, m.declared a.scope = some source ∧
      source.rateLimit = a.request.rateLimit := by
  cases hc with
  | accept digest ha =>
    obtain ⟨source, hd, -, -, hl⟩ := ha.declared
    exact forall_mem_singleton.mpr ⟨source, hd, hl⟩
  | _ => exact forall_mem_nil _

/-! ## Whole histories -/

section Histories

variable {st : MemoryState}

variable (host options) in
theorem metered_run (hs : st.journal.source = .empty) (hn : scope.Named)
    (hep : scope.epoch ≠ 0) (calls : List Call) :
    Metered scope (accepted host options st calls) (run host options st calls).journal.source := by
  induction calls using List.reverseRecOn with
  | nil => exact hs ▸ ⟨nofun, nofun, nofun, fun _ _ _ => Nat.zero_le _⟩
  | append_singleton calls call ih =>
    obtain ⟨hf, hl, -⟩ := logged_run host options hs calls
    rw [accepted, run, Machine.collect_append, Machine.run_append, Machine.collect, Machine.collect,
      append_nil]
    exact (step_change host options _ call).metered hf hl hn hep ih

theorem governed_run {rule : SourceRateLimit} (hf : Fenced st.journal.source)
    (hd : scope.epoch ≤ st.journal.source.nextAuthorityEpoch)
    (hde : ∀ source, st.journal.source.declared scope = some source → source.rateLimit = some rule)
    (hl : ∀ a ∈ log, a.scope = scope → a.request.rateLimit = some rule) (calls : List Call) :
    ∀ a ∈ log ++ accepted host options st calls, a.scope = scope →
      a.request.rateLimit = some rule := by
  suffices h : Fenced (run host options st calls).journal.source ∧
      scope.epoch ≤ (run host options st calls).journal.source.nextAuthorityEpoch ∧
      (∀ source, (run host options st calls).journal.source.declared scope = some source →
        source.rateLimit = some rule) ∧
      ∀ a ∈ log ++ accepted host options st calls, a.scope = scope →
        a.request.rateLimit = some rule from h.2.2.2
  refine Machine.collect_invariant (I := fun (log : List Acceptance) (st : MemoryState) =>
    Fenced st.journal.source ∧ scope.epoch ≤ st.journal.source.nextAuthorityEpoch ∧
    (∀ source, st.journal.source.declared scope = some source → source.rateLimit = some rule) ∧
    ∀ a ∈ log, a.scope = scope → a.request.rateLimit = some rule)
    ?_ ⟨hf, hd, hde, hl⟩ calls
  rintro log st call ⟨hf, hd, hde, hl⟩
  have hc := step_change host options st call
  refine ⟨hc.fenced hf, hd.trans (hc.draws hf.stamped).mono,
    fun source hsr => ?_, forall_mem_append.mpr ⟨hl, fun a ha hs => ?_⟩⟩
  · have hk := hc.scope_kept hf hd (declared_active hsr)
    exact hde source (hk.declared ▸ hsr)
  · obtain ⟨source, hsr, hli⟩ := hc.under_rule a ha
    exact hli.symm.trans (hde source (hs ▸ hsr))

/-- In every history, the accepted decision times of a scope never fall, and once the scope is
declared with a rule, every half-open interval of the rule's width holds at most its quota of
them. -/
theorem rate_limits_hold (host : Host) (options : InMemoryOptions) (st : MemoryState)
    (hstart : st.journal.source = .empty) (calls more : List Call) (scope : ScopeName) :
    let times := timesOf scope (accepted host options st (calls ++ more))
    times.Pairwise (· ≤ ·) ∧
      ∀ source rule, (run host options st calls).journal.source.declared scope = some source →
        source.rateLimit = some rule → ∀ start : Int,
        (times.filter fun time => start ≤ time ∧ time < start + rule.windowMs.toNat).length ≤
          rule.maxEvents.toNat := by
  intro times
  obtain ⟨hfenced, hlogged, -⟩ := logged_run host options hstart (calls ++ more)
  refine ⟨?_, fun source rule hdeclared hrule start => ?_⟩
  · refine pairwise_map.mpr ((hlogged.ordered.filter _).imp_of_mem ?_)
    intro a b ha hb hle
    have hscope : ∀ c : Acceptance, c ∈ (accepted host options st (calls ++ more)).filter
        (fun a => a.scope = scope) → c.scope = scope := fun c hc => by
      simpa using of_mem_filter hc
    exact hle ((hscope a ha).trans (hscope b hb).symm)
  by_cases hnone : ∀ a ∈ accepted host options st (calls ++ more), a.scope ≠ scope
  · have htimes : times = [] := timesOf_eq_nil hnone
    rw [htimes]
    exact Nat.zero_le _
  simp only [not_forall, not_not] at hnone
  obtain ⟨a, ha, rfl⟩ := hnone
  have hvalid := hlogged.valid a ha
  have hmetered := metered_run host options hstart hvalid.1.1 hvalid.2.1
  -- everything accepted so far and from now on is under the rule of the declaration
  have hrules : ∀ b ∈ accepted host options st (calls ++ more), b.scope = a.scope →
      b.request.rateLimit = some rule := by
    rw [accepted, Machine.collect_append]
    obtain ⟨hfenced, -, -⟩ := logged_run host options hstart calls
    have hactive := declared_active hdeclared
    refine governed_run hfenced (hfenced.stamped.bounded (.scope _ _) _ hactive) ?_ ?_ more
    · intro other hother
      cases hdeclared.symm.trans hother
      exact hrule
    · exact fun b hb hscope => ((hmetered calls).governed source hdeclared b hb hscope).trans hrule
  have hwindow := (hmetered (calls ++ more)).bounded rule hrules (start - 1)
  have hsame : times.filter (fun time => start ≤ time ∧ time < start + rule.windowMs.toNat) =
      within rule.windowMs.toNat (start - 1) times := by
    refine filter_congr fun time _ => ?_
    rw [decide_eq_decide]
    omega
  rw [hsame]
  exact hwindow

/-- Two commits fill the quota; a third within the window is refused, and a maintenance step far
ahead does not let the clock go back. -/
theorem rate_limits_hold_inbox :
    let calls : List Call := [.commit (inboxCommit "a" 1 none) 0 quiet,
      .commit (inboxCommit "b" 2 none) 5 quiet, .commit (inboxCommit "c" 3 none) 9 quiet,
      .maintain 40 9, .commit (inboxCommit "c" 3 none) 9 quiet]
    ∀ start : Int, ((timesOf ⟨"i", "p", 2⟩ (accepted plainHost plainOptions .empty
        ([.compareInstall inboxDefinition none] ++ calls))).filter
      fun time => start ≤ time ∧ time < start + 10).length ≤ 2 := by
  intro calls
  exact (rate_limits_hold plainHost plainOptions .empty rfl [.compareInstall inboxDefinition none]
    calls ⟨"i", "p", 2⟩).2 inboxSource ⟨10, 2⟩ (by decide +kernel) rfl

end Histories

end Xolotl.Source
