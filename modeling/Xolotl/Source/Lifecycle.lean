import Xolotl.Source.Memory

/-! What the operations on streams and installations do: each either changes nothing or makes
one change under conditions that are spelled out. -/

namespace Xolotl.Source.SourceMemory

open Xolotl.Types Word List

variable {options : State.InMemoryOptions} {host : Host} {m m' : SourceMemory}

theorem activeStreamScope_iff {stream : SourceStreamScope} : m.activeStreamScope stream = true ↔
      m.scopeEpoch stream.installationId stream.projectionId = some stream.scopeEpoch := by
  simp [activeStreamScope]

section

variable (options m) (request : SourceStreamOpen) (nextEpoch nextRevision : UInt64)

def streamRevision (scope : ScopeName) : UInt64 :=
  m.revision (scope.key kindRevision)

def streamAt (name : StreamName) : Option SourceStreamState :=
  m.sequences.get name.key

/-! ## Opening -/

structure StreamCall (stream : SourceStreamScope) : Prop where
  named : stream.name.Named
  epoch_ne_zero : stream.scopeEpoch ≠ 0
  active : m.scopeEpoch stream.installationId stream.projectionId = some stream.scopeEpoch

structure Opens : Prop where
  call : m.StreamCall request.stream
  vacant : m.streamAt request.stream.name = none
  expected : request.expectedRevision = m.streamRevision request.stream.scope
  room : m.sequences.size < options.sourceStreamLimit
  epoch : checkedAdd m.nextAuthorityEpoch 1 = some nextEpoch
  revision : checkedAdd (m.streamRevision request.stream.scope) 1 = some nextRevision

def freshRow : SourceStreamState :=
  ⟨nextEpoch, m.streamRevision request.stream.scope, 0, request.openId⟩

def opened : SourceMemory :=
  { m with
    nextAuthorityEpoch := nextEpoch
    streamRevisions := m.streamRevisions.insert (request.stream.scope.key kindRevision) nextRevision
    sequences := m.sequences.insert request.stream.name.key (m.freshRow request nextEpoch) }

def Reopens (snapshot : SourceStreamSnapshot) : Prop :=
  m.StreamCall request.stream ∧
    ∃ active, m.streamAt request.stream.name = some active ∧ snapshot.active = some active ∧
      active.openId = request.openId ∧ active.openedAtRevision = request.expectedRevision

def Opening (answer : SourceResult SourceStreamOpenOutcome) (m' : SourceMemory) : Prop :=
  (m' = m ∧ ∀ snapshot, answer = .ok (.opened snapshot) → m.Reopens request snapshot) ∨
    ∃ nextEpoch nextRevision, m.Opens options request nextEpoch nextRevision ∧
      m' = m.opened request nextEpoch nextRevision ∧
      answer = .ok (.opened ⟨nextRevision, some (m.freshRow request nextEpoch)⟩)

end

section

variable {request : SourceStreamOpen} {answer : SourceResult SourceStreamOpenOutcome}

theorem openAt_cases (hc : m.StreamCall request.stream)
    (h : m.openAt options request request.stream.name.key (request.stream.scope.key kindRevision) =
      (answer, m')) : m.Opening options request answer m' := by
  unfold openAt at h
  cases hro : m.sequences.get request.stream.name.key with
  | some active =>
    simp only [hro] at h
    split at h
    next hs =>
      cases h
      refine .inl ⟨rfl, fun snapshot ha => ?_⟩
      cases ha
      exact ⟨hc, active, hro, rfl, hs⟩
    · cases h
      exact .inl ⟨rfl, nofun⟩
  | none =>
    simp only [hro] at h
    repeat
      split at h
      · cases h
        exact .inl ⟨rfl, nofun⟩
    rename_i he hr _ nextEpoch hep _ nextRevision hre
    cases h
    exact .inr ⟨nextEpoch, nextRevision, ⟨hc, hro, not_not.mp he, Nat.lt_of_not_le hr,
      hep, hre⟩, rfl, rfl⟩

theorem openStream_cases (h : m.openStream options request = (answer, m')) :
    m.Opening options request answer m' := by
  unfold openStream at h
  repeat
    split at h
    · cases h
      exact .inl ⟨rfl, nofun⟩
  rename_i key hk _ revisionKey hr _ ha
  obtain ⟨⟨hn, hzero⟩, rfl⟩ := streamScopeKey_stream_eq_ok.mp hk
  obtain ⟨_, rfl⟩ := streamScopeKey_revision_eq_ok.mp hr
  exact openAt_cases ⟨hn, hzero, activeStreamScope_iff.mp (by simpa using ha)⟩ h

end

/-! ## Retiring a stream -/

structure Retires (m : SourceMemory) (request : SourceStreamRetire) (row : SourceStreamState)
    (nextRevision : UInt64) : Prop where
  call : m.StreamCall request.stream
  found : m.streamAt request.stream.name = some row
  epoch : row.streamEpoch = request.streamEpoch
  revision : checkedAdd (m.streamRevision request.stream.scope) 1 = some nextRevision

def retired (m : SourceMemory) (request : SourceStreamRetire) (nextRevision : UInt64) :
    SourceMemory :=
  { m with
    sequences := m.sequences.erase request.stream.name.key
    streamRevisions := m.streamRevisions.insert (request.stream.scope.key kindRevision)
      nextRevision }

variable {request : SourceStreamRetire} {answer : SourceResult ExternalInstallationMutation}

theorem retireStream_cases
    {answer : SourceResult SourceStreamRetireOutcome} (h : m.retireStream request = (answer, m')) :
    m' = m ∨ ∃ row nextRevision, m.Retires request row nextRevision ∧
      m' = m.retired request nextRevision ∧ answer = .ok (.retired nextRevision) := by
  unfold retireStream at h
  repeat
    split at h
    · cases h
      exact .inl rfl
  rename_i key hk _ revisionKey hr _ ha
  obtain ⟨⟨hn, hzero⟩, rfl⟩ := streamScopeKey_stream_eq_ok.mp hk
  obtain ⟨_, rfl⟩ := streamScopeKey_revision_eq_ok.mp hr
  unfold retireAt at h
  dsimp only at h
  repeat
    split at h
    · cases h
      exact .inl rfl
  rename_i row hro hep _ nextRevision hre
  cases h
  exact .inr ⟨row, nextRevision, ⟨⟨hn, hzero, activeStreamScope_iff.mp (by simpa using ha)⟩,
    hro, not_not.mp hep, hre⟩, rfl, rfl⟩

/-! ## Installing -/

theorem isId_of_validateBuiltinSource {installationId projectionId : Text} {source : EventSource}
    (h : validateBuiltinSource installationId projectionId source = .ok ()) :
    isId installationId = true ∧ isId projectionId = true := by
  rw [validateBuiltinSource] at h
  by_cases hin : installationId.bytes = []
  · rw [if_pos hin] at h
    cases h
  by_cases hi : maxIdBytes < installationId.bytes.length
  · rw [if_neg hin, if_pos hi] at h
    cases h
  by_cases hpr : projectionId.bytes = []
  · rw [if_neg hin, if_neg hi, if_pos hpr] at h
    cases h
  by_cases hp : maxIdBytes < projectionId.bytes.length
  · rw [if_neg hin, if_neg hi, if_neg hpr, if_pos hp] at h
    cases h
  exact ⟨isId_iff.mpr ⟨hin, not_lt.mp hi⟩, isId_iff.mpr ⟨hpr, not_lt.mp hp⟩⟩

theorem isId_of_validateSources {installationId : Text} {projections : List ExternalProjectionDef}
    (h : validateSources installationId projections = .ok ()) :
    ∀ projection ∈ projections, projection.emits.isSome = true →
      isId installationId = true ∧ isId projection.id = true := by
  induction projections with
  | nil => exact nofun
  | cons head rest ih =>
    unfold validateSources at h
    split at h
    next hn =>
      refine forall_mem_cons.mpr ⟨?_, ih h⟩
      rw [hn]
      exact nofun
    next source hs =>
      split at h
      next => cases h
      next hvalid => exact forall_mem_cons.mpr ⟨fun _ => isId_of_validateBuiltinSource hvalid, ih h⟩

theorem assignEpochs_spec (projections : List ExternalProjectionDef) (next : UInt64)
    (epochs : OrderedMap Key UInt64) (hr : next.toNat + sourceCount projections ≤ u64Max)
    (hb : ∀ p e, epochs.get p = some e → e ≤ next)
    (hd : ∀ p q e, epochs.get p = some e → epochs.get q = some e → p = q) :
    (∀ p e, (assignEpochs projections next epochs).get p = some e →
      epochs.get p = some e ∨ (next < e ∧ e.toNat ≤ next.toNat + sourceCount projections ∧
        ∃ projection ∈ projections, projection.emits.isSome = true ∧ p = ⟨projection.id⟩)) ∧
    ∀ p q e, (assignEpochs projections next epochs).get p = some e →
      (assignEpochs projections next epochs).get q = some e → p = q := by
  induction projections generalizing next epochs with
  | nil => exact ⟨fun _ _ h => .inl h, hd⟩
  | cons projection rest ih =>
    by_cases he : projection.emits.isSome = true
    · have hc : sourceCount (projection :: rest) = sourceCount rest + 1 := countP_cons_of_pos he
      have hn : (next + 1).toNat = next.toNat + 1 := by
        rw [UInt64.toNat_add, UInt64.toNat_one]
        unfold u64Max at hr
        omega
      have hlt : next < next + 1 := by
        rw [UInt64.lt_iff_toNat_lt]
        omega
      -- the new entry lies above all old ones, so both hypotheses carry over
      have hs := ih (next + 1) (epochs.insert ⟨projection.id⟩ (next + 1)) (by omega)
        (fun p e h => ?below) (fun p q e hp hq => ?distinct)
      case below =>
        rw [OrderedMap.get_insert] at h
        split at h
        · exact le_of_eq (Option.some.inj h).symm
        · exact (hb p e h).trans (le_of_lt hlt)
      case distinct =>
        rw [OrderedMap.get_insert] at hp hq
        split at hp
        next hk =>
          split at hq
          next hke => exact hk.symm.trans hke
          next =>
            have hle := hb q e hq
            rw [← Option.some.inj hp] at hle
            exact absurd hle (not_le.mpr hlt)
        next =>
          split at hq
          next =>
            have hle := hb p e hp
            rw [← Option.some.inj hq] at hle
            exact absurd hle (not_le.mpr hlt)
          next => exact hd p q e hp hq
      rw [assignEpochs, if_pos he]
      refine ⟨fun p e h => ?_, hs.2⟩
      rcases hs.1 p e h with hold | ⟨hf, hh, q, hq, hso, hid⟩
      · rw [OrderedMap.get_insert] at hold
        split at hold
        next hky =>
          rw [← Option.some.inj hold]
          exact .inr ⟨hlt, by omega, projection, mem_cons_self, he, hky.symm⟩
        next => exact .inl hold
      · exact .inr ⟨hlt.trans hf, by omega, q, mem_cons_of_mem _ hq, hso, hid⟩
    · have hc : sourceCount (projection :: rest) = sourceCount rest := countP_cons_of_neg he
      rw [hc] at hr ⊢
      rw [assignEpochs, if_neg he]
      obtain ⟨hkt, hi⟩ := ih next epochs hr hb hd
      refine ⟨fun p e h => ?_, hi⟩
      rcases hkt p e h with hold | ⟨hf, hh, q, hq, hre⟩
      · exact .inl hold
      · exact .inr ⟨hf, hh, q, mem_cons_of_mem _ hq, hre⟩

structure Installs (host : Host) (m : SourceMemory) (definition : ExternalInstallationDef)
    (expected : Option ExternalInstallationRevision) (version high : UInt64) (keys : List Bytes) :
    Prop where
  admitted : host.validateAdmission definition = .ok ()
  sources : validateSources definition.id definition.projections = .ok ()
  current : (m.installations.get ⟨definition.id⟩).map ExternalInstallationRecord.revision = expected
  version : checkedAdd ((expected.map ExternalInstallationRevision.version).getD 0) 1 = some version
  range : m.allocated definition ≤ u64Max
  high : checkedAdd m.nextAuthorityEpoch (UInt64.ofNat (m.allocated definition)) = some high
  keys : revisionKeysOf (m.installations.get ⟨definition.id⟩) = .ok keys

def newRecord (m : SourceMemory) (definition : ExternalInstallationDef) (version : UInt64) :
    ExternalInstallationRecord := m.installed { definition with version := version }

def replaced (m : SourceMemory) (definition : ExternalInstallationDef) (version high : UInt64)
    (keys : List Bytes) : SourceMemory :=
  displace
    { m with
      nextAuthorityEpoch := high
      installations := m.installations.insert ⟨definition.id⟩ (m.newRecord definition version) }
    keys (m.installations.get ⟨definition.id⟩)

theorem compareInstall_cases {definition : ExternalInstallationDef}
    {expected : Option ExternalInstallationRevision}
    (h : m.compareInstall host definition expected = (answer, m')) :
    (m' = m ∧ ∀ record, answer ≠ .ok (.applied record)) ∨
      ∃ version high keys, m.Installs host definition expected version high keys ∧
        m' = m.replaced definition version high keys ∧
        answer = .ok (.applied (some (m.newRecord definition version))) := by
  unfold compareInstall installNext at h
  dsimp only at h
  repeat
    split at h
    · cases h
      exact .inl ⟨rfl, nofun⟩
  rename_i ha _ hs hc _ version hv hr _ high hh _ _ _ _ _ keys hk
  cases h
  exact .inr ⟨version, high, keys, ⟨ha, hs, not_not.mp hc, hv, not_lt.mp hr, hh, hk⟩, rfl, rfl⟩

/-! ## Retiring an installation -/

structure Uninstalls (m : SourceMemory) (id : Text) (expected : ExternalInstallationRevision)
    (old : ExternalInstallationRecord) (keys : List Bytes) : Prop where
  found : m.installations.get ⟨id⟩ = some old
  current : old.revision = expected
  keys : revisionKeys id old.scopeEpochs.entries = .ok keys

def removed (m : SourceMemory) (id : Text) (old : ExternalInstallationRecord) (keys : List Bytes) :
    SourceMemory :=
  displace { m with installations := m.installations.erase ⟨id⟩ } keys (some old)

theorem compareRetire_cases {id : Text} {expected : ExternalInstallationRevision}
    (h : m.compareRetire id expected = (answer, m')) :
    (m' = m ∧ ∀ record, answer ≠ .ok (.applied record)) ∨
      ∃ old keys, m.Uninstalls id expected old keys ∧ m' = m.removed id old keys ∧
        answer = .ok (.applied none) := by
  unfold compareRetire at h
  dsimp only at h
  repeat
    split at h
    · cases h
      exact .inl ⟨rfl, nofun⟩
  rename_i hc _ old hold _ keys hk
  cases h
  rw [hold, not_not] at hc
  exact .inr ⟨old, keys, ⟨hold, Option.some.inj hc, hk⟩, rfl, rfl⟩

end Xolotl.Source.SourceMemory
