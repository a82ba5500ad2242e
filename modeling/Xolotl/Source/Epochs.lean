import Xolotl.Lib.Fresh
import Xolotl.Source.History
import Xolotl.Source.Sweep

/-! Epochs of installations, scopes and streams come from one counter, so whatever was retired
stays retired. -/

namespace Xolotl.Source

open Xolotl.Types Xolotl.State Word Fresh OrderedMap SourceMemory

inductive Place
  | installation (id : Key)
  | scope (id projection : Key)
  | stream (key : Bytes)
  deriving DecidableEq

namespace SourceMemory

def epochAt (m : SourceMemory) : Place → Option UInt64
  | .installation id => (m.installations.get id).map ExternalInstallationRecord.installationEpoch
  | .scope id projection =>
    (m.installations.get id).bind fun record => record.scopeEpochs.get projection
  | .stream key => (m.sequences.get key).map SourceStreamState.streamEpoch

/-- Epochs lie below the counter and no two places share one. -/
abbrev Stamped (m : SourceMemory) : Prop := Fresh.Stamped epochAt nextAuthorityEpoch m

abbrev Draws (m m' : SourceMemory) : Prop := Fresh.Draws epochAt nextAuthorityEpoch m m'

abbrev Spent (m : SourceMemory) (epoch : UInt64) : Prop :=
  Fresh.Spent epochAt nextAuthorityEpoch m epoch

end SourceMemory

variable {host : Host} {options : InMemoryOptions} {m m' : SourceMemory}

theorem stamped_empty : SourceMemory.empty.Stamped where
  bounded p e h := by cases p <;> cases h
  unique p q e h := by cases p <;> cases h

theorem draws_of_kept (h : m.Stamped) (hn : m'.nextAuthorityEpoch = m.nextAuthorityEpoch)
    (hk : ∀ p e, m'.epochAt p = some e → m.epochAt p = some e) : m.Draws m' where
  mono := le_of_eq hn.symm
  kept p e hp := .inl (hk p e hp)
  distinct p _ e hlt hp _ := absurd (h.bounded p e (hk p e hp)) (not_le.mpr hlt)

theorem epochAt_of_erase {row : Bytes} {p : Place} {e : UInt64} (h : m'.epochAt p = some e)
    (hi : m'.installations = m.installations)
    (hs : m'.sequences = m.sequences.erase row) : m.epochAt p = some e := by
  cases p with
  | installation id | scope id projection => rwa [epochAt, hi] at h
  | stream key =>
    rw [epochAt, hs, get_erase] at h
    split at h
    · cases h
    · exact h

/-! ## Each change -/

theorem streamEpoch_advanced (m : SourceMemory) (request : SourceCommit) (key : Bytes) :
    ((advanced m request).get key).map SourceStreamState.streamEpoch =
      (m.sequences.get key).map SourceStreamState.streamEpoch := by
  unfold advanced
  split
  next => rfl
  next stream _ =>
    dsimp only
    split
    next => rfl
    next row hr =>
      rw [get_insert]
      split
      next heq =>
        rw [← heq, hr]
        rfl
      next => rfl

theorem draws_accept (h : m.Stamped) (request : SourceCommit) (digest : Bytes)
    (decisionAtMs : Int) : m.Draws (acceptedSource m request digest decisionAtMs) := by
  refine draws_of_kept h rfl fun p e hp => ?_
  cases p with
  | installation id | scope id projection => exact hp
  | stream key =>
    rw [epochAt, acceptedSource, streamEpoch_advanced] at hp
    exact hp

theorem lt_of_checkedAdd_one {a b : UInt64} (h : checkedAdd a 1 = some b) : a < b := by
  rw [UInt64.lt_iff_toNat_lt, toNat_of_checkedAdd h]
  exact Nat.lt_succ_self _

theorem draws_open (h : m.Stamped) {request : SourceStreamOpen} {nextEpoch nextRevision : UInt64}
    (ho : m.Opens options request nextEpoch nextRevision) :
    m.Draws (m.opened request nextEpoch nextRevision) := by
  have hlt := lt_of_checkedAdd_one ho.epoch
  -- the only new epoch stands at the opened stream
  have hk : ∀ p e, (m.opened request nextEpoch nextRevision).epochAt p = some e →
      m.epochAt p = some e ∨ p = .stream request.stream.name.key ∧ e = nextEpoch := by
    intro p e hp
    cases p with
    | installation id | scope id projection => exact .inl hp
    | stream key =>
      rw [epochAt, opened, get_insert] at hp
      split at hp
      next heq => exact .inr ⟨congrArg Place.stream heq.symm, (Option.some.inj hp).symm⟩
      next => exact .inl hp
  refine ⟨le_of_lt hlt, fun p e hp => ?_, fun p q e hf hp hq => ?_⟩
  · rcases hk p e hp with hold | ⟨-, rfl⟩
    · exact .inl hold
    · exact .inr ⟨hlt, le_rfl⟩
  · rcases hk p e hp with hold | ⟨rfl, -⟩
    · exact absurd (h.bounded p e hold) (not_le.mpr hf)
    · rcases hk q e hq with hold | ⟨rfl, -⟩
      · exact absurd (h.bounded q e hold) (not_le.mpr hf)
      · rfl

theorem draws_uninstall (h : m.Stamped) (id : Text) (old : ExternalInstallationRecord)
    (keys : List Bytes) : m.Draws (m.removed id old keys) := by
  refine draws_of_kept h rfl fun p e hp => ?_
  cases p with
  | installation key =>
    obtain ⟨record, hr, rfl⟩ := Option.map_eq_some_iff.mp hp
    rw [epochAt, (get_of_get_erase hr).2]
    rfl
  | scope key projection =>
    obtain ⟨record, hr, hep⟩ := Option.bind_eq_some_iff.mp hp
    rw [epochAt, (get_of_get_erase hr).2]
    exact hep
  | stream key => exact hp

theorem draws_maintain (h : m.Stamped) (decisionAtMs : Int) (limit : Nat) :
    m.Draws (m.maintain decisionAtMs limit).2 := by
  have hk : (m.maintain decisionAtMs limit).2.nextAuthorityEpoch = m.nextAuthorityEpoch ∧
      ∀ p e, (m.maintain decisionAtMs limit).2.epochAt p = some e → m.epochAt p = some e := by
    refine maintain_invariant (I := fun m₁ =>
      m₁.nextAuthorityEpoch = m.nextAuthorityEpoch ∧
        ∀ p e, m₁.epochAt p = some e → m.epochAt p = some e) ⟨rfl, fun _ _ h => h⟩ ?_ ?_ ?_
    · exact fun _ _ _ => ⟨rfl, fun _ _ h => h⟩
    · intro _ _ m₁ m₂ key _ _ _ _ hm₁ hc
      cases hc with
      | none | event | rate => exact hm₁
      | stream =>
        refine ⟨hm₁.1, fun p e hp => hm₁.2 p e ?_⟩
        exact epochAt_of_erase hp rfl rfl
    · exact fun _ _ h => h
  exact draws_of_kept h hk.1 hk.2

/-! ## Installation -/

variable {definition : ExternalInstallationDef} {expected : Option ExternalInstallationRevision}
  {version high : UInt64} {keys : List Bytes}

theorem toNat_high (h : m.Installs host definition expected version high keys) :
    high.toNat = m.nextAuthorityEpoch.toNat + m.allocated definition ∧
      m.nextAuthorityEpoch.toNat + m.allocated definition ≤ u64Max := by
  have hs : (UInt64.ofNat (m.allocated definition)).toNat = m.allocated definition :=
    UInt64.toNat_ofNat_of_lt' (Nat.lt_of_le_of_lt h.range (by decide))
  have hh := toNat_of_checkedAdd h.high
  have hle := le_of_checkedAdd h.high
  rw [hs] at hh hle
  exact ⟨hh, hle⟩

theorem newRecord_epochs (hst : m.Stamped)
    (h : m.Installs host definition expected version high keys)
    {record : ExternalInstallationRecord} (hrec : m.newRecord definition version = record) :
    ((m.installations.get ⟨definition.id⟩).map ExternalInstallationRecord.installationEpoch =
        some record.installationEpoch ∨
      m.nextAuthorityEpoch < record.installationEpoch ∧ record.installationEpoch ≤ high) ∧
    (∀ p e, record.scopeEpochs.get p = some e → m.nextAuthorityEpoch < e ∧ e ≤ high ∧
      e ≠ record.installationEpoch ∧ isId definition.id = true ∧ isId p.text = true) ∧
    ∀ p q e, record.scopeEpochs.get p = some e → record.scopeEpochs.get q = some e → p = q := by
  obtain ⟨hh, hma⟩ := toNat_high h
  have hid := isId_of_validateSources h.sources
  cases hold : m.installations.get ⟨definition.id⟩ with
  | none =>
    have ha : m.allocated definition = sourceCount definition.projections + 1 := by
      rw [allocated, hold]
      rfl
    have hn : (m.nextAuthorityEpoch + 1).toNat = m.nextAuthorityEpoch.toNat + 1 := by
      rw [UInt64.toNat_add, UInt64.toNat_one]
      unfold u64Max at hma
      omega
    obtain ⟨hs, hi⟩ := assignEpochs_spec definition.projections
      (m.nextAuthorityEpoch + 1) .empty (by omega) nofun nofun
    simp only [← hrec, newRecord, installed, hold]
    refine ⟨.inr ⟨?_, ?_⟩, fun p e hp => ?_, hi⟩
    · rw [UInt64.lt_iff_toNat_lt, hn]
      omega
    · rw [UInt64.le_iff_toNat_le, hn]
      omega
    · rcases hs p e hp with hem | ⟨hf, hle, projection, hm, he, rfl⟩
      · cases hem
      · have hf' := UInt64.lt_iff_toNat_lt.mp hf
        refine ⟨?_, ?_, hf.ne', hid projection hm he⟩
        · rw [UInt64.lt_iff_toNat_lt]
          omega
        · rw [UInt64.le_iff_toNat_le]
          omega
  | some old =>
    have ha : m.allocated definition = sourceCount definition.projections := by
      rw [allocated, hold]
      rfl
    have ho : old.installationEpoch ≤ m.nextAuthorityEpoch :=
      hst.bounded (.installation ⟨definition.id⟩) _ (by
        rw [epochAt, hold]
        rfl)
    obtain ⟨hs, hi⟩ := assignEpochs_spec definition.projections
      m.nextAuthorityEpoch .empty (by omega) nofun nofun
    simp only [← hrec, newRecord, installed, hold]
    refine ⟨.inl rfl, fun p e hp => ?_, hi⟩
    rcases hs p e hp with hem | ⟨hf, hle, projection, hm, he, rfl⟩
    · cases hem
    · refine ⟨hf, ?_, (ho.trans_lt hf).ne', hid projection hm he⟩
      rw [UInt64.le_iff_toNat_le]
      omega

theorem draws_install (hs : m.Stamped)
    (h : m.Installs host definition expected version high keys) :
    m.Draws (m.replaced definition version high keys) := by
  obtain ⟨ho, hsc, hi⟩ := newRecord_epochs hs h rfl
  have hm : m.nextAuthorityEpoch ≤ high := by
    rw [UInt64.le_iff_toNat_le, (toNat_high h).1]
    omega
  have hg : ∀ key record, (m.replaced definition version high keys).installations.get key =
      some record → m.installations.get key = some record ∨
        key = ⟨definition.id⟩ ∧ record = m.newRecord definition version := by
    intro key record hr
    by_cases hke : (⟨definition.id⟩ : Key) = key
    · subst hke
      exact .inr ⟨rfl, Option.some.inj (hr.symm.trans (get_insert_self _ _ _))⟩
    · exact .inl ((get_insert_of_ne _ _ hke).symm.trans hr)
  -- an epoch is one from before, or stands in the new record above the counter
  have hk : ∀ p e, (m.replaced definition version high keys).epochAt p = some e →
      m.epochAt p = some e ∨ m.nextAuthorityEpoch < e ∧ e ≤ high ∧
        (p = .installation ⟨definition.id⟩ ∧
            e = (m.newRecord definition version).installationEpoch ∨
          ∃ projection, p = .scope ⟨definition.id⟩ projection ∧
            (m.newRecord definition version).scopeEpochs.get projection = some e) := by
    intro p e hp
    cases p with
    | installation key =>
      obtain ⟨record, hr, rfl⟩ := Option.map_eq_some_iff.mp hp
      rcases hg key record hr with hold | ⟨rfl, rfl⟩
      · left
        rw [epochAt, hold]
        rfl
      · rcases ho with hold | ⟨hf, hle⟩
        · exact .inl hold
        · exact .inr ⟨hf, hle, .inl ⟨rfl, rfl⟩⟩
    | scope key projection =>
      obtain ⟨record, hr, hep⟩ := Option.bind_eq_some_iff.mp hp
      rcases hg key record hr with hold | ⟨rfl, rfl⟩
      · left
        rw [epochAt, hold]
        exact hep
      · obtain ⟨hf, hle, -⟩ := hsc projection e hep
        exact .inr ⟨hf, hle, .inr ⟨projection, rfl, hep⟩⟩
    | stream key => exact .inl hp
  refine ⟨hm, fun p e hp => ?_, fun p q e hf hp hq => ?_⟩
  · rcases hk p e hp with hold | ⟨hlt, hle, -⟩
    · exact .inl hold
    · exact .inr ⟨hlt, hle⟩
  · rcases hk p e hp with hold | ⟨-, -, hp⟩
    · exact absurd (hs.bounded p e hold) (not_le.mpr hf)
    rcases hk q e hq with hold | ⟨-, -, hq⟩
    · exact absurd (hs.bounded q e hold) (not_le.mpr hf)
    rcases hp with ⟨rfl, rfl⟩ | ⟨projection, rfl, hpr⟩
    · rcases hq with ⟨rfl, -⟩ | ⟨projection, rfl, hpr⟩
      · rfl
      · exact absurd rfl (hsc projection _ hpr).2.2.1
    · rcases hq with ⟨rfl, rfl⟩ | ⟨other, rfl, hot⟩
      · exact absurd rfl (hsc projection _ hpr).2.2.1
      · rw [hi projection other e hpr hot]

theorem Change.draws {log : List Acceptance} (h : Change host options m log m')
    (hs : m.Stamped) : m.Draws m' := by
  cases h with
  | none => exact .refl hs
  | accept digest h => exact draws_accept hs _ digest _
  | openStream h => exact draws_open hs h
  | retireStream h => exact draws_of_kept hs rfl fun _ _ hp => epochAt_of_erase hp rfl rfl
  | install h => exact draws_install hs h
  | uninstall h => exact draws_uninstall hs _ _ _
  | maintain decisionAtMs limit => exact draws_maintain hs decisionAtMs limit

end Xolotl.Source
