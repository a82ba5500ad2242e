import Xolotl.Source.Epochs

/-! Retired incarnations never act again: epochs fence commits, revisions fence stream openings,
installation epochs fence the catalog. -/

namespace Xolotl.Source

open Fallible Xolotl.Types Xolotl.State Word Fresh OrderedMap SourceMemory

variable {host : Host} {options : InMemoryOptions} {m m' : SourceMemory} {log : List Acceptance}

/-! ## Erased revision rows -/

variable {id : Text} {keys : List Bytes} {scope : ScopeName} {name : StreamName}
  {row : SourceStreamState} {entries : List (Key × UInt64)} {nextRevision : UInt64}

theorem mem_revisionKeys
    (h : revisionKeys id entries = .ok keys) {key : Bytes} (hk : key ∈ keys) :
    ∃ scope : ScopeName, scope.Named ∧ scope.installation = id ∧ key = scope.key kindRevision := by
  induction entries generalizing keys with
  | nil =>
    cases h
    cases hk
  | cons entry entries ih =>
    obtain ⟨projection, epoch⟩ := entry
    rw [revisionKeys] at h
    simp only [bind_ok] at h
    obtain ⟨first, hf, rest, hr, h⟩ := h
    cases Except.ok.inj h
    obtain ⟨hn, rfl⟩ := epochKey_eq_ok.mp hf
    rcases List.mem_cons.mp hk with rfl | hk
    · exact ⟨⟨id, projection.text, epoch⟩, hn, rfl, rfl⟩
    · exact ih hr hk

theorem streamRevision_eraseAll
    (h : revisionKeys id entries = .ok keys) (hn : scope.Named)
    (ho : scope.installation ≠ id)
    (hr : m'.streamRevisions = m.streamRevisions.eraseAll keys) :
    m'.streamRevision scope = m.streamRevision scope := by
  unfold streamRevision SourceMemory.revision
  rw [hr, get_eraseAll, if_neg]
  intro hm
  obtain ⟨other, hn', hid, hk⟩ := mem_revisionKeys h hm
  rw [ScopeName.key_inj hn hn' hk] at ho
  exact ho hid

def SourceMemory.Filed (m : SourceMemory) : Prop :=
  ∀ key record, m.installations.get key = some record → record.definition.id = key.text

theorem filed_of_insert {key : Key} {record : ExternalInstallationRecord} (h : m.Filed)
    (hr : record.definition.id = key.text)
    (hi : m'.installations = m.installations.insert key record) : m'.Filed := by
  intro other found hf
  rw [hi, get_insert] at hf
  split at hf
  next heq =>
    cases hf
    rw [← heq]
    exact hr
  next => exact h other found hf

theorem installations_maintain (m : SourceMemory) (decisionAtMs : Int) (limit : Nat) :
    (m.maintain decisionAtMs limit).2.installations = m.installations ∧
      (m.maintain decisionAtMs limit).2.streamRevisions = m.streamRevisions := by
  refine maintain_invariant (I := fun m₁ => m₁.installations = m.installations ∧
    m₁.streamRevisions = m.streamRevisions) ⟨rfl, rfl⟩ ?_ ?_ ?_
  · exact fun _ _ _ => ⟨rfl, rfl⟩
  · intro _ _ m₁ m₂ key _ _ _ _ hm₁ hc
    cases hc <;> exact hm₁
  · exact fun _ _ h => h

theorem Change.filed (h : Change host options m log m') (hf : m.Filed) : m'.Filed := by
  cases h with
  | none | accept | openStream | retireStream => exact hf
  | install h =>
    refine filed_of_insert hf ?_ rfl
    unfold newRecord installed
    split <;> rfl
  | uninstall h => exact fun key record hg => hf key record (get_of_get_erase hg).2
  | maintain decisionAtMs limit =>
    rw [SourceMemory.Filed, (installations_maintain m decisionAtMs limit).1]
    exact hf

/-! ## Rows and revisions of an active scope -/

/-- How a change treats one stream of a scope that stays active: the row keeps its identity, is
dropped, or is opened afresh at the current revision; the revision never falls, and rises when
the row is opened or retired. -/
structure Keeps (m m' : SourceMemory) (name : StreamName) : Prop where
  row : ∀ row', m'.streamAt name = some row' →
    (∃ row, m.streamAt name = some row ∧ row'.streamEpoch = row.streamEpoch ∧
      row'.openId = row.openId ∧ row'.openedAtRevision = row.openedAtRevision) ∨
    (m.nextAuthorityEpoch < row'.streamEpoch ∧ row'.openedAtRevision = m.streamRevision name.scope ∧
      m.streamRevision name.scope < m'.streamRevision name.scope)
  revision : m.streamRevision name.scope ≤ m'.streamRevision name.scope

theorem keeps_of_rows (hr : ∀ row', m'.streamAt name = some row' → m.streamAt name = some row')
    (hre : m'.streamRevision name.scope = m.streamRevision name.scope) : Keeps m m' name :=
  ⟨fun row' h => .inl ⟨row', hr row' h, rfl, rfl, rfl⟩, le_of_eq hre.symm⟩

theorem keeps_accept (m : SourceMemory) (request : SourceCommit) (digest : Bytes)
    (decisionAtMs : Int)
    (name : StreamName) : Keeps m (acceptedSource m request digest decisionAtMs) name := by
  refine ⟨fun row' h => .inl ?_, le_rfl⟩
  unfold streamAt acceptedSource advanced at h
  dsimp only at h
  split at h
  next => exact ⟨row', h, rfl, rfl, rfl⟩
  next stream _ =>
    split at h
    next => exact ⟨row', h, rfl, rfl, rfl⟩
    next row hr =>
      rw [get_insert] at h
      split at h
      next heq =>
        cases h
        exact ⟨row, (congrArg m.sequences.get heq.symm).trans hr, rfl, rfl, rfl⟩
      next => exact ⟨row', h, rfl, rfl, rfl⟩

theorem streamRevision_insert (m' : SourceMemory) {other : ScopeName} {next : UInt64}
    (hs : scope.Named)
    (ho : other.Named) (hn : checkedAdd (m.streamRevision scope) 1 = some next)
    (hr : m'.streamRevisions = m.streamRevisions.insert (scope.key kindRevision) next) :
    m.streamRevision other ≤ m'.streamRevision other ∧
      (scope = other → m.streamRevision other < m'.streamRevision other) := by
  have hg : m'.streamRevision other =
      if scope.key kindRevision = other.key kindRevision then next else m.streamRevision other := by
    unfold streamRevision SourceMemory.revision
    rw [hr, get_insert]
    split <;> rfl
  rw [hg]
  by_cases hk : scope.key kindRevision = other.key kindRevision
  · obtain rfl := ScopeName.key_inj hs ho hk
    rw [if_pos rfl]
    have hlt := lt_of_checkedAdd_one hn
    exact ⟨le_of_lt hlt, fun _ => hlt⟩
  · rw [if_neg hk]
    exact ⟨le_rfl, fun heq => absurd (congrArg _ heq) hk⟩

theorem keeps_open {request : SourceStreamOpen} {nextEpoch : UInt64}
    (h : m.Opens options request nextEpoch nextRevision) (hn : name.Named) :
    Keeps m (m.opened request nextEpoch nextRevision) name := by
  obtain ⟨hle, hlt⟩ := streamRevision_insert (m.opened request nextEpoch nextRevision)
    h.call.named.1 hn.1 h.revision rfl
  refine ⟨fun row' hr' => ?_, hle⟩
  unfold streamAt opened at hr'
  rw [get_insert] at hr'
  split at hr'
  next hk =>
    cases hr'
    obtain rfl := StreamName.key_inj h.call.named hn hk
    exact .inr ⟨lt_of_checkedAdd_one h.epoch, rfl, hlt rfl⟩
  next => exact .inl ⟨row', hr', rfl, rfl, rfl⟩

theorem keeps_retire {request : SourceStreamRetire}
    (h : m.Retires request row nextRevision) (hn : name.Named) :
    Keeps m (m.retired request nextRevision) name := by
  obtain ⟨hle, -⟩ := streamRevision_insert (m.retired request nextRevision)
    h.call.named.1 hn.1 h.revision rfl
  refine ⟨fun row' hr' => ?_, hle⟩
  exact .inl ⟨row', (get_of_get_erase hr').2, rfl, rfl, rfl⟩

theorem streamAt_maintain {decisionAtMs : Int} {limit : Nat}
    (h : (m.maintain decisionAtMs limit).2.streamAt name = some row) :
    m.streamAt name = some row := by
  revert row
  refine maintain_invariant (I := fun m₁ => ∀ {row}, m₁.streamAt name = some row →
    m.streamAt name = some row) (fun h => h) (fun _ _ _ _ h => h) ?_ (fun _ _ h => h)
  intro _ _ m₁ m₂ key _ _ _ _ hm₁ hc row hr
  cases hc with
  | none | event | rate => exact hm₁ hr
  | stream => exact hm₁ (get_of_get_erase hr).2

theorem keeps_maintain (m : SourceMemory) (decisionAtMs : Int) (limit : Nat) (name : StreamName) :
    Keeps m (m.maintain decisionAtMs limit).2 name := by
  refine keeps_of_rows (fun _ h => streamAt_maintain h) ?_
  unfold streamRevision SourceMemory.revision
  rw [(installations_maintain m decisionAtMs limit).2]

theorem installation_ne_of_install (hs : m.Stamped) {definition : ExternalInstallationDef}
    {expected : Option ExternalInstallationRevision} {version high : UInt64}
    (h : m.Installs host definition expected version high keys)
    (hb : scope.epoch ≤ m.nextAuthorityEpoch)
    (ha : (m.replaced definition version high keys).scopeEpoch scope.installation
      scope.projection = some scope.epoch) : scope.installation ≠ definition.id := by
  intro hid
  obtain ⟨record, hr, hep⟩ := Option.bind_eq_some_iff.mp ha
  rw [hid] at hr
  obtain rfl : m.newRecord definition version = record :=
    Option.some.inj ((get_insert_self _ _ _).symm.trans hr)
  exact absurd hb (not_le.mpr ((newRecord_epochs hs h rfl).2.1 _ _ hep).1)

theorem installation_ne_of_uninstall {old : ExternalInstallationRecord}
    (ha : (m.removed id old keys).scopeEpoch scope.installation scope.projection =
      some scope.epoch) : scope.installation ≠ id := by
  rintro rfl
  obtain ⟨record, hr, -⟩ := Option.bind_eq_some_iff.mp ha
  exact (get_of_get_erase hr).1 rfl

theorem Change.keeps (h : Change host options m log m') (hs : m.Stamped) (hf : m.Filed)
    (hn : name.Named) (hb : name.scope.epoch ≤ m.nextAuthorityEpoch)
    (ha : m'.scopeEpoch name.scope.installation name.scope.projection =
      some name.scope.epoch) : Keeps m m' name := by
  cases h with
  | none => exact ⟨fun row' h => .inl ⟨row', h, rfl, rfl, rfl⟩, le_rfl⟩
  | accept => exact keeps_accept m _ _ _ name
  | openStream h => exact keeps_open h hn
  | retireStream h => exact keeps_retire h hn
  | @install definition expected version high keys h =>
    have ho := installation_ne_of_install hs h hb ha
    refine keeps_of_rows (fun _ h => h) ?_
    cases hold : m.installations.get ⟨definition.id⟩ with
    | none =>
      have hk := h.keys
      rw [hold] at hk
      cases hk
      rfl
    | some old =>
      have hk := h.keys
      rw [hold] at hk
      have hid : old.definition.id = definition.id := hf _ old hold
      exact streamRevision_eraseAll hk hn.1 (hid ▸ ho) rfl
  | @uninstall id expected old keys h =>
    have ho := installation_ne_of_uninstall ha
    exact keeps_of_rows (fun _ h => h) (streamRevision_eraseAll h.keys hn.1 ho rfl)
  | maintain decisionAtMs limit => exact keeps_maintain m decisionAtMs limit name

/-! ## The invariant of whole histories -/

/-- Rows belong to scopes that were drawn, and rows of an active scope were opened before its
current revision. -/
structure Fenced (m : SourceMemory) : Prop where
  stamped : m.Stamped
  filed : m.Filed
  placed : ∀ name row, name.Named → m.streamAt name = some row →
    name.scope.epoch ≤ m.nextAuthorityEpoch
  revised : ∀ name row, name.Named → m.streamAt name = some row →
    m.scopeEpoch name.scope.installation name.scope.projection = some name.scope.epoch →
    row.openedAtRevision < m.streamRevision name.scope

theorem fenced_empty : Fenced .empty where
  stamped := stamped_empty
  filed := nofun
  placed := nofun
  revised := nofun

theorem active_of_active (hd : m.Draws m') (hb : scope.epoch ≤ m.nextAuthorityEpoch)
    (ha : m'.scopeEpoch scope.installation scope.projection = some scope.epoch) :
    m.scopeEpoch scope.installation scope.projection = some scope.epoch := by
  rcases hd.kept (.scope ⟨scope.installation⟩ ⟨scope.projection⟩) _ ha with hold | ⟨hf, -⟩
  · exact hold
  · exact absurd hb (not_le.mpr hf)

theorem Change.placed (h : Change host options m log m') (hf : Fenced m) (hn : name.Named)
    (hr : m'.streamAt name = some row) : name.scope.epoch ≤ m.nextAuthorityEpoch := by
  have hold : ∀ row, m.streamAt name = some row → name.scope.epoch ≤ m.nextAuthorityEpoch :=
    fun row h => hf.placed name row hn h
  cases h with
  | none => exact hold row hr
  | accept =>
    rcases (keeps_accept m _ _ _ name).row row hr with ⟨row', hr', -⟩ | ⟨-, -, hlt⟩
    · exact hold row' hr'
    · exact absurd hlt (lt_irrefl _)
  | openStream h =>
    unfold streamAt opened at hr
    rw [get_insert] at hr
    split at hr
    next hk =>
      obtain rfl := StreamName.key_inj h.call.named hn hk
      exact hf.stamped.bounded (.scope _ _) _ h.call.active
    next => exact hold row hr
  | retireStream h => exact hold row (get_of_get_erase hr).2
  | install h | uninstall h => exact hold row hr
  | maintain decisionAtMs limit =>
    rcases (keeps_maintain m decisionAtMs limit name).row row hr with ⟨row', hr', -⟩ | ⟨-, -, hlt⟩
    · exact hold row' hr'
    · rw [streamRevision, streamRevision, SourceMemory.revision,
        SourceMemory.revision, (installations_maintain m decisionAtMs limit).2] at hlt
      exact absurd hlt (lt_irrefl _)

theorem Change.fenced (h : Change host options m log m') (hf : Fenced m) : Fenced m' := by
  have hd := h.draws hf.stamped
  refine ⟨hf.stamped.step hd, h.filed hf.filed, fun name row hn hr => ?_,
    fun name row hn hr ha => ?_⟩
  · exact (h.placed hf hn hr).trans hd.mono
  · have hb := h.placed hf hn hr
    have hk := h.keeps hf.stamped hf.filed hn hb ha
    rcases hk.row row hr with ⟨old, hold, -, -, ho⟩ | ⟨-, ho, hlt⟩
    · have hre := hf.revised name old hn hold (active_of_active hd hb ha)
      rw [ho]
      exact hre.trans_le hk.revision
    · rw [ho]
      exact hlt

/-- What is known about an opening that was answered once, for as long as its scope is active. -/
structure Retry (name : StreamName) (openId : Text) (revision epoch : UInt64) (m : SourceMemory) :
    Prop where
  drawn : epoch ≤ m.nextAuthorityEpoch
  scope_drawn : name.scope.epoch ≤ m.nextAuthorityEpoch
  same : m.scopeEpoch name.scope.installation name.scope.projection = some name.scope.epoch →
    ∀ row, m.streamAt name = some row → row.streamEpoch = epoch →
      row.openId = openId ∧ row.openedAtRevision = revision
  later : m.scopeEpoch name.scope.installation name.scope.projection = some name.scope.epoch →
    revision < m.streamRevision name.scope ∧
      ∀ row, m.streamAt name = some row → row.openedAtRevision = revision → row.streamEpoch = epoch

theorem Change.retry (h : Change host options m log m') (hfe : Fenced m)
    (hn : name.Named) {openId : Text} {revision epoch : UInt64}
    (hr : Retry name openId revision epoch m) : Retry name openId revision epoch m' := by
  have hd := h.draws hfe.stamped
  have hk := h.keeps hfe.stamped hfe.filed hn hr.scope_drawn
  have hb := active_of_active hd hr.scope_drawn
  refine ⟨hr.drawn.trans hd.mono, hr.scope_drawn.trans hd.mono,
    fun ha row hrw hep => ?_, fun ha => ⟨?_, fun row hrw ho => ?_⟩⟩
  · rcases (hk ha).row row hrw with ⟨old, hold, heq, hid, hre⟩ | ⟨hf, -⟩
    · rw [hid, hre]
      exact hr.same (hb ha) old hold (heq ▸ hep)
    · rw [hep] at hf
      exact absurd hr.drawn (not_le.mpr hf)
  · exact (hr.later (hb ha)).1.trans_le (hk ha).revision
  · obtain ⟨hlt, hro⟩ := hr.later (hb ha)
    rcases (hk ha).row row hrw with ⟨old, hold, heq, -, hre⟩ | ⟨-, hat, -⟩
    · rw [heq]
      exact hro old hold (hre ▸ ho)
    · rw [ho] at hat
      exact absurd hat hlt.ne

/-! ## Whole histories -/

section Run

variable {st : MemoryState}

theorem fenced_run (h : Fenced st.journal.source) (calls : List Call) :
    Fenced (run host options st calls).journal.source :=
  Machine.run_invariant (I := fun st => Fenced st.journal.source)
    (fun st call h => (step_change host options st call).fenced h) h calls

variable {epoch : UInt64} {request : SourceStreamOpen}

theorem retry_run (host : Host) (options : InMemoryOptions) (hn : name.Named)
    {openId : Text} {revision : UInt64} (hf : Fenced st.journal.source)
    (hr : Retry name openId revision epoch st.journal.source) (calls : List Call) :
    Retry name openId revision epoch (run host options st calls).journal.source :=
  (Machine.run_invariant (I := fun st => Fenced st.journal.source ∧
      Retry name openId revision epoch st.journal.source)
    (fun st call h => ⟨(step_change host options st call).fenced h.1,
      (step_change host options st call).retry h.1 hn h.2⟩) ⟨hf, hr⟩ calls).2

theorem kept_run (host : Host) (options : InMemoryOptions) (h : Fenced st.journal.source)
    (calls : List Call) : st.journal.source.nextAuthorityEpoch ≤
        (run host options st calls).journal.source.nextAuthorityEpoch ∧
      ∀ place epoch, (run host options st calls).journal.source.epochAt place = some epoch →
        st.journal.source.epochAt place = some epoch ∨
          st.journal.source.nextAuthorityEpoch < epoch := by
  let I : MemoryState → Prop := fun st' =>
    Fenced st'.journal.source ∧
      st.journal.source.nextAuthorityEpoch ≤ st'.journal.source.nextAuthorityEpoch ∧
      ∀ place epoch, st'.journal.source.epochAt place = some epoch →
        st.journal.source.epochAt place = some epoch ∨ st.journal.source.nextAuthorityEpoch < epoch
  have hs : ∀ st' call, I st' → I (step host options st' call).2 := by
    intro st' call ⟨hfe, hm, hk⟩
    have hc := step_change host options st' call
    have hd := hc.draws hfe.stamped
    refine ⟨hc.fenced hfe, hm.trans hd.mono, fun place epoch hep => ?_⟩
    rcases hd.kept place epoch hep with hold | ⟨hf, -⟩
    · exact hk place epoch hold
    · exact .inr (hm.trans_lt hf)
  exact (Machine.run_invariant hs ⟨h, le_rfl, fun _ _ => .inl⟩ calls).2

theorem spent_run (hf : Fenced st.journal.source)
    (h : st.journal.source.Spent epoch) (calls : List Call) :
    (run host options st calls).journal.source.Spent epoch :=
  (Machine.run_invariant (I := fun st => Fenced st.journal.source ∧ st.journal.source.Spent epoch)
    (fun st call h => ⟨(step_change host options st call).fenced h.1,
      h.2.step ((step_change host options st call).draws h.1.stamped)⟩) ⟨hf, h⟩ calls).2

theorem spent_of_left {place : Place} (hfe : Fenced st.journal.source)
    (hbe : st.journal.source.epochAt place = some epoch) (calls : List Call)
    (ha : (run host options st calls).journal.source.epochAt place ≠ some epoch) :
    (run host options st calls).journal.source.Spent epoch := by
  obtain ⟨hm, hk⟩ := kept_run host options hfe calls
  have hb := hfe.stamped.bounded place epoch hbe
  refine ⟨hb.trans hm, fun other ho => ?_⟩
  rcases hk other epoch ho with hold | hf
  · rw [hfe.stamped.unique place other epoch hbe hold] at ha
    exact ha ho
  · exact absurd hb (not_le.mpr hf)

theorem Admitted.in_force {request : SourceCommit} {decisionAtMs : Int}
    (h : Admitted options m request decisionAtMs) :
    m.epochAt (.scope ⟨request.claim.installationId⟩ ⟨request.claim.projectionId⟩) =
        some request.claim.scopeEpoch ∧
      ∀ epoch ∈ request.claim.streamEpoch, ∃ place, m.epochAt place = some epoch := by
  obtain ⟨source, hd, -⟩ := h.declared
  refine ⟨scopeEpoch_of_declared hd, fun epoch hep => ?_⟩
  rw [h.epochs] at hep
  obtain ⟨stream, hs, rfl⟩ := Option.map_eq_some_iff.mp hep
  obtain ⟨row, hro, hr, -⟩ := h.position stream hs
  refine ⟨.stream (StreamName.key ⟨request.claim.scope, stream.streamId⟩), ?_⟩
  rw [← hr]
  exact congrArg (Option.map SourceStreamState.streamEpoch) hro

theorem not_accepted_of_spent (h : st.journal.source.Spent epoch) {request : SourceCommit}
    (hn : request.claim.scopeEpoch = epoch ∨ request.claim.streamEpoch = some epoch)
    (decisionAtMs : Int) (sample : Sample) :
    (commitSource host options st request decisionAtMs sample).1 ≠ .ok .accepted := by
  rcases hc : commitSource host options st request decisionAtMs sample with ⟨verdict, st'⟩
  rcases commitSource_cases hc with ⟨hv, -⟩ | ⟨-, prepared, admission, ha⟩
  · exact hv
  · obtain ⟨hs, hst⟩ := ha.admitted.in_force
    rcases hn with rfl | hep
    · exact absurd hs (h.2 _)
    · obtain ⟨place, hp⟩ := hst epoch hep
      exact absurd hp (h.2 place)

theorem revision_ne_of_spent (h : m.Spent epoch) (key : Key) (version : UInt64) :
    (m.installations.get key).map ExternalInstallationRecord.revision ≠ some ⟨epoch, version⟩ := by
  intro hc
  obtain ⟨record, hre, hr⟩ := Option.map_eq_some_iff.mp hc
  have hep : record.installationEpoch = epoch :=
    congrArg ExternalInstallationRevision.installationEpoch hr
  apply h.2 (.installation key)
  rw [epochAt, hre, Option.map_some, hep]

/-! ## Retried openings -/

variable {snapshot : SourceStreamSnapshot}

theorem isId_of_opened
    (h : (m.openStream options request).1 = .ok (.opened snapshot)) :
    isId request.openId = true := by
  unfold openStream at h
  by_contra hid
  rw [Bool.not_eq_true] at hid
  simp only [hid] at h
  split at h
  · cases h
  · split at h <;> cases h

theorem openStream_eq (hc : m.StreamCall request.stream) (hid : isId request.openId = true) :
    m.openStream options request =
      m.openAt options request request.stream.name.key (request.stream.scope.key kindRevision) := by
  have hk := streamScopeKey_stream_eq_ok.mpr ⟨⟨hc.named, hc.epoch_ne_zero⟩, rfl⟩
  have hr := streamScopeKey_revision_eq_ok.mpr ⟨⟨hc.named, hc.epoch_ne_zero⟩, rfl⟩
  have ha := activeStreamScope_iff.mpr hc.active
  unfold openStream
  simp only [hk, hr, hid, ha, Bool.not_true, Bool.false_eq_true, if_false]

theorem retry_of_opened (hfe : Fenced m)
    (h : m.openStream options request = (.ok (.opened snapshot), m'))
    (ha : snapshot.active = some row) : m.StreamCall request.stream ∧
      m'.epochAt (.stream request.stream.name.key) = some row.streamEpoch ∧
      Retry request.stream.name request.openId request.expectedRevision row.streamEpoch m' := by
  rcases openStream_cases h with ⟨rfl, hr⟩ | ⟨nextEpoch, nextRevision, ho, rfl, heq⟩
  · obtain ⟨hc, active, hf, hsa, hid, hre⟩ := hr snapshot rfl
    cases ha.symm.trans hsa
    have hs := hfe.stamped.bounded (.scope _ _) _ hc.active
    have hat : m'.epochAt (.stream request.stream.name.key) = some row.streamEpoch :=
      congrArg (Option.map SourceStreamState.streamEpoch) hf
    refine ⟨hc, hat, hfe.stamped.bounded _ _ hat, hs,
      fun _ other hot _ => ?_, fun hfo => ⟨?_, fun other hot _ => ?_⟩⟩
    · cases hf.symm.trans hot
      exact ⟨hid, hre⟩
    · rw [← hre]
      exact hfe.revised _ _ hc.named hf hfo
    · cases hf.symm.trans hot
      rfl
  · cases heq
    obtain rfl := Option.some.inj ha
    have hf : (m.opened request nextEpoch nextRevision).streamAt request.stream.name =
        some (m.freshRow request nextEpoch) := get_insert_self _ _ _
    have hlt := (streamRevision_insert (m.opened request nextEpoch nextRevision)
      ho.call.named.1 ho.call.named.1 ho.revision rfl).2 rfl
    have hs := hfe.stamped.bounded (.scope _ _) _ ho.call.active
    refine ⟨ho.call, congrArg (Option.map SourceStreamState.streamEpoch) hf, le_rfl,
      hs.trans (le_of_lt (lt_of_checkedAdd_one ho.epoch)),
      fun _ other hot _ => ?_, fun _ => ⟨?_, fun other hot _ => ?_⟩⟩
    · cases hf.symm.trans hot
      exact ⟨rfl, ho.expected.symm⟩
    · rw [ho.expected]
      exact hlt
    · cases hf.symm.trans hot
      rfl

theorem openStream_of_retry
    (hr : Retry request.stream.name request.openId request.expectedRevision epoch m)
    (hc : m.StreamCall request.stream) (hid : isId request.openId = true)
    (hro : m.streamAt request.stream.name = some row) (hep : row.streamEpoch = epoch) :
    m.openStream options request =
      (.ok (.opened ⟨m.streamRevision request.stream.scope, some row⟩), m) := by
  have hs := hr.same hc.active row hro hep
  have hg : m.sequences.get request.stream.name.key = some row := hro
  rw [openStream_eq hc hid, openAt]
  simp only [hg, if_pos hs]
  rfl

theorem not_opened_of_retry
    (hr : Retry request.stream.name request.openId request.expectedRevision epoch m)
    (hg : ∀ row, m.streamAt request.stream.name = some row → row.streamEpoch ≠ epoch) :
    (∀ snapshot, (m.openStream options request).1 ≠ .ok (.opened snapshot)) ∧
      (m.openStream options request).2 = m := by
  rcases hop : m.openStream options request with ⟨answer, m'⟩
  rcases openStream_cases hop with ⟨rfl, hre⟩ | ⟨_, _, ho, -⟩
  · refine ⟨fun snapshot ha => ?_, rfl⟩
    obtain ⟨hc, active, hf, -, -, hrv⟩ := hre snapshot ha
    exact hg active hf ((hr.later hc.active).2 active hf hrv)
  · have hlt := (hr.later ho.call.active).1
    rw [ho.expected] at hlt
    exact absurd hlt (lt_irrefl _)

end Run

/-- Epochs come from one counter and never come back. Whatever was in force at one point of a
history and not at a later one cannot commit, cannot change the catalog and cannot be reopened
by a retry at any point after that. A definition that is not admitted aborts before its revision
is looked at, and changes nothing either. -/
theorem retired_incarnations_never_act (host : Host) (options : InMemoryOptions) (st : MemoryState)
    (hstart : st.journal.source = .empty) (calls later more : List Call) :
    let s := run host options st calls
    let t := run host options s later
    let u := run host options t more
    (s.journal.source.Stamped ∧
      s.journal.source.nextAuthorityEpoch ≤ t.journal.source.nextAuthorityEpoch ∧
      ∀ place epoch, t.journal.source.epochAt place = some epoch →
        s.journal.source.epochAt place = some epoch ∨ s.journal.source.nextAuthorityEpoch < epoch) ∧
    (∀ place epoch, s.journal.source.epochAt place = some epoch →
      t.journal.source.epochAt place ≠ some epoch →
      (∀ other, u.journal.source.epochAt other ≠ some epoch) ∧
      (∀ request decisionAtMs sample,
        (request.claim.scopeEpoch = epoch ∨ request.claim.streamEpoch = some epoch) →
        (commitSource host options u request decisionAtMs sample).1 ≠ .ok .accepted) ∧
      (∀ definition version, host.validateAdmission definition = .ok () →
        validateSources definition.id definition.projections = .ok () →
        ∃ current, u.journal.source.compareInstall host definition (some ⟨epoch, version⟩) =
          (.ok (.conflict current), u.journal.source)) ∧
      (∀ definition version, ¬ (host.validateAdmission definition = .ok () ∧
          validateSources definition.id definition.projections = .ok ()) →
        ∃ reason, u.journal.source.compareInstall host definition (some ⟨epoch, version⟩) =
          (aborted reason, u.journal.source)) ∧
      ∀ id version, ∃ current, u.journal.source.compareRetire id ⟨epoch, version⟩ =
        (.ok (.conflict current), u.journal.source)) ∧
    ∀ request snapshot row,
      (s.journal.source.openStream options request).1 = .ok (.opened snapshot) →
      snapshot.active = some row →
      let t := run host options (step host options s (.openStream request)).2 later
      let u := run host options t more
      (t.journal.source.scopeEpoch request.stream.installationId request.stream.projectionId =
          some request.stream.scopeEpoch →
        t.journal.source.epochAt (.stream request.stream.name.key) = some row.streamEpoch →
        ∃ revision row', row'.streamEpoch = row.streamEpoch ∧
          t.journal.source.openStream options request =
            (.ok (.opened ⟨revision, some row'⟩), t.journal.source)) ∧
      (t.journal.source.epochAt (.stream request.stream.name.key) ≠ some row.streamEpoch →
        (∀ snapshot, (u.journal.source.openStream options request).1 ≠ .ok (.opened snapshot)) ∧
          (u.journal.source.openStream options request).2 = u.journal.source) := by
  intro s t u
  have hs : Fenced s.journal.source := fenced_run (hstart ▸ fenced_empty) calls
  have ht : Fenced t.journal.source := fenced_run hs later
  refine ⟨⟨hs.stamped, kept_run host options hs later⟩, fun place epoch hbefore hafter => ?_,
    fun request snapshot row hopened hactive => ?_⟩
  · have hspent : u.journal.source.Spent epoch :=
      spent_run ht (spent_of_left hs hbefore later hafter) more
    refine ⟨hspent.2, fun request decisionAtMs sample hnames =>
      not_accepted_of_spent hspent hnames decisionAtMs sample,
      fun definition version hadmitted hsources => ?_, fun definition version hrefused => ?_,
      fun id version => ?_⟩
    · unfold compareInstall
      simp only [hadmitted, hsources, if_pos (revision_ne_of_spent hspent _ version)]
      exact ⟨_, rfl⟩
    · unfold compareInstall
      cases hadmitted : host.validateAdmission definition with
      | error e => exact ⟨_, rfl⟩
      | ok =>
        cases hsources : validateSources definition.id definition.projections with
        | error e => exact ⟨_, rfl⟩
        | ok => exact absurd ⟨hadmitted, hsources⟩ hrefused
    · unfold compareRetire
      simp only [if_pos (revision_ne_of_spent hspent _ version)]
      exact ⟨_, rfl⟩
  · intro t u
    have hid := isId_of_opened hopened
    obtain ⟨hcall, hat, hretry⟩ := retry_of_opened hs (Prod.ext hopened rfl) hactive
    -- the state in which the opening has been answered
    let s' := (step host options s (.openStream request)).2
    have hs' : Fenced s'.journal.source :=
      (step_change host options s (.openStream request)).fenced hs
    have hretry' : Retry request.stream.name request.openId request.expectedRevision
      row.streamEpoch s'.journal.source := hretry
    have ht : Fenced t.journal.source := fenced_run hs' later
    have hretryt := retry_run host options hcall.named hs' hretry' later
    refine ⟨fun hscope hopen => ?_, fun hgone => ?_⟩
    · obtain ⟨row', hrow', hepoch⟩ := Option.map_eq_some_iff.mp hopen
      exact ⟨_, row', hepoch, openStream_of_retry hretryt
        ⟨hcall.named, hcall.epoch_ne_zero, hscope⟩ hid hrow' hepoch⟩
    · have hspent : u.journal.source.Spent row.streamEpoch :=
        spent_run ht (spent_of_left hs' hat later hgone) more
      refine not_opened_of_retry (retry_run host options hcall.named ht hretryt more) ?_
      intro row' hrow' hepoch
      apply hspent.2 (.stream request.stream.name.key)
      rw [← hepoch]
      exact congrArg (Option.map SourceStreamState.streamEpoch) hrow'

/-- Install, retire and install again under the same names: the first scope's epoch is gone, and
the first revision conflicts. -/
theorem retired_incarnations_never_act_reinstalled :
    let st := run plainHost plainOptions (run plainHost plainOptions .empty
      [.compareInstall inboxDefinition none]) [.compareRetire "i" ⟨1, 1⟩]
    let st' := run plainHost plainOptions st [.compareInstall inboxDefinition none]
    (commitSource plainHost plainOptions st' (inboxCommit "e" 1 none) 0 quiet).1 ≠ .ok .accepted ∧
    ∃ current, st'.journal.source.compareInstall plainHost inboxDefinition (some ⟨1, 1⟩) =
      (.ok (.conflict current), st'.journal.source) := by
  have h := retired_incarnations_never_act plainHost plainOptions .empty rfl
    [.compareInstall inboxDefinition none] [.compareRetire "i" ⟨1, 1⟩]
    [.compareInstall inboxDefinition none]
  obtain ⟨-, hgone, -⟩ := h
  refine ⟨?_, ?_⟩
  · exact (hgone (.scope ⟨"i"⟩ ⟨"p"⟩) 2 (by decide +kernel) (by decide +kernel)).2.1 _ 0 quiet
      (.inl rfl)
  · exact (hgone (.installation ⟨"i"⟩) 1 (by decide +kernel) (by decide +kernel)).2.2.1 _ 1 rfl
      (by decide +kernel)

def emptySinkDefinition : ExternalInstallationDef :=
  ⟨"i", [⟨"p", some { inboxSource with capacity := ⟨0, .dropOldest⟩ }⟩], 0, []⟩

/-- The revision of a retired installation does not conflict when the definition that comes with
it declares a sink without room: the call aborts first. -/
theorem stale_install_aborts :
    let first := run plainHost plainOptions .empty [.compareInstall inboxDefinition none]
    let st := run plainHost plainOptions first [.compareRetire "i" ⟨1, 1⟩]
    first.journal.source.epochAt (.installation ⟨"i"⟩) = some 1 ∧
    st.journal.source.epochAt (.installation ⟨"i"⟩) = none ∧
    (st.journal.source.compareInstall plainHost emptySinkDefinition (some ⟨1, 1⟩)).1 =
      aborted "Source sink event capacity is invalid" := by
  decide +kernel

end Xolotl.Source
