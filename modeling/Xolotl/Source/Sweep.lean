import Xolotl.Source.Memory

/-! What a maintenance step does: it raises the time floors of the active scopes its batch
touches, then examines the rows of the batch one by one. -/

namespace Xolotl.Source.SourceMemory

open Xolotl.Types Word List

variable {m m' : SourceMemory} {decisionAtMs : Int} {limit : Nat} {key : Bytes}

def batch (m : SourceMemory) (limit : Nat) : List Bytes := (m.rowsAfter m.cursor).take limit

/-! ## Floors -/

/-- The floors of the touched epochs, all of them active, move up to the decision time. -/
structure Raises (m : SourceMemory) (decisionAtMs : Int) (keys : List Bytes)
    (floors : OrderedMap UInt64 Int) (touched : List UInt64) : Prop where
  get : ∀ epoch, floors.get epoch =
    if epoch ∈ touched then some decisionAtMs else m.decisionTimeFloors.get epoch
  above : ∀ epoch ∈ touched, ∀ floor ∈ m.decisionTimeFloors.get epoch, floor ≤ decisionAtMs
  covers : ∀ key ∈ keys, ∃ installation projection epoch,
    parseSourceScope key = .ok (installation, projection, epoch) ∧
      (m.scopeEpoch installation projection = some epoch → epoch ∈ touched)

variable {keys : List Bytes} {floors : List (UInt64 × Int)} {I : SourceMemory → Prop}

theorem batchFloors_spec (h : m.batchFloors decisionAtMs keys = .ok floors) :
    (∀ entry ∈ floors, entry.2 = decisionAtMs ∧
      ∀ floor ∈ m.decisionTimeFloors.get entry.1, floor ≤ decisionAtMs) ∧
    ∀ key ∈ keys, ∃ installation projection epoch,
      parseSourceScope key = .ok (installation, projection, epoch) ∧
        (m.scopeEpoch installation projection = some epoch → epoch ∈ floors.map Prod.fst) := by
  induction keys generalizing floors with
  | nil =>
    cases h
    exact ⟨nofun, nofun⟩
  | cons key keys ih =>
    unfold batchFloors at h
    split at h
    next => cases h
    next installation projection epoch hpa =>
      split at h
      next hac =>
        split at h
        next => cases h
        next hf =>
          cases hr : m.batchFloors decisionAtMs keys with
          | error e =>
            rw [hr] at h
            cases h
          | ok rest =>
            rw [hr] at h
            cases h
            obtain ⟨ha, hc⟩ := ih hr
            refine ⟨forall_mem_cons.mpr ⟨⟨rfl, fun floor hg => ?_⟩, ha⟩,
              forall_mem_cons.mpr ⟨⟨installation, projection, epoch, hpa,
                fun _ => mem_cons_self⟩, fun other ho => ?_⟩⟩
            · rw [Option.mem_def.mp hg] at hf
              simpa using hf
            · obtain ⟨i, p, e, hp, hm⟩ := hc other ho
              exact ⟨i, p, e, hp, fun hac => mem_cons_of_mem _ (hm hac)⟩
      next hi =>
        obtain ⟨ha, hc⟩ := ih h
        exact ⟨ha, forall_mem_cons.mpr ⟨⟨installation, projection, epoch, hpa,
          fun hac => absurd hac hi⟩, hc⟩⟩

theorem raises_of_batchFloors (h : m.batchFloors decisionAtMs keys = .ok floors) :
    m.Raises decisionAtMs keys (m.decisionTimeFloors.insertAll floors) (floors.map Prod.fst) := by
  obtain ⟨hf, hc⟩ := batchFloors_spec h
  refine ⟨OrderedMap.get_insertAll_const _ _ _ fun entry he => (hf entry he).1, ?_, hc⟩
  intro epoch hep
  obtain ⟨entry, he, rfl⟩ := mem_map.mp hep
  exact (hf entry he).2

/-! ## Rows -/

variable (decisionAtMs : Int) (m : SourceMemory) (key : Bytes) in
inductive RowChange : SourceMemory → Prop
  | none : RowChange m
  | event {record : AcceptedEvent} (hkind : key.head? = some kindEvent)
      (hget : m.events.get key = some record) (hexpired : record.expiresAtMs < decisionAtMs) :
      RowChange
        { m with
          events := m.events.erase key
          receipts := m.receipts.erase (receiptKeyOf key record.claimId) }
  | rate {record : RateRecord} (hkind : key.head? = some kindRate)
      (hget : m.rates.get key = some record) (hexpired : record.expired decisionAtMs = true) :
      RowChange { m with rates := m.rates.erase key }
  | stream {installation projection : Text} {epoch : UInt64} (hkind : key.head? = some kindStream)
      (hparse : parseSourceScope key = .ok (installation, projection, epoch))
      (hinactive : m.scopeEpoch installation projection ≠ some epoch) :
      RowChange { m with sequences := m.sequences.erase key }

theorem sweepRow_change (decisionAtMs : Int) (m : SourceMemory) (key : Bytes) :
    RowChange decisionAtMs m key (sweepRow decisionAtMs m key).2 := by
  unfold sweepRow
  split
  next hk =>
    split
    next => exact .none
    next record hg =>
      split
      next => exact .none
      next he => exact .event hk hg (not_le.mp he)
  next =>
    split
    next hk =>
      split
      next => exact .none
      next record hg =>
        split
        next he => exact .rate hk hg he
        next => exact .none
    next =>
      split
      next hk =>
        split
        next => exact .none
        next installation projection epoch hp =>
          split
          next hi => exact .stream hk hp hi
          next => exact .none
      next => exact .none

theorem sweep_invariant
    (hr : ∀ m m' key, key ∈ keys → I m → RowChange decisionAtMs m key m' → I m') (h : I m)
    (removed : Nat) : I (sweep decisionAtMs keys removed m).2 := by
  induction keys generalizing m removed with
  | nil => exact h
  | cons key keys ih =>
    have hh : I (sweepRow decisionAtMs m key).2 :=
      hr m _ key mem_cons_self h (sweepRow_change decisionAtMs m key)
    unfold sweep
    split
    next heq =>
      rw [heq] at hh
      exact hh
    next heq =>
      rw [heq] at hh
      exact ih (fun m m' key hk => hr m m' key (mem_cons_of_mem _ hk)) hh _

/-- The rule for maintenance: the floors are raised once, each row of the batch is examined, and
the cursor moves. -/
theorem maintain_invariant (h : I m)
    (hra : ∀ floors touched, m.Raises decisionAtMs (m.batch limit) floors touched →
      I { m with decisionTimeFloors := floors })
    (hro : ∀ floors touched m₁ m₂ key, m.Raises decisionAtMs (m.batch limit) floors touched →
      key ∈ m.batch limit → m₁.decisionTimeFloors = floors → m₁.installations = m.installations →
      I m₁ → RowChange decisionAtMs m₁ key m₂ → I m₂)
    (hcr : ∀ m₁ cursor, I m₁ → I { m₁ with cursor := cursor }) :
    I (m.maintain decisionAtMs limit).2 := by
  unfold maintain
  split
  next => exact h
  next =>
    dsimp only
    split
    next => exact h
    next floors hf =>
      have hr := raises_of_batchFloors hf
      let J : SourceMemory → Prop := fun m₁ =>
        I m₁ ∧ m₁.decisionTimeFloors = m.decisionTimeFloors.insertAll floors ∧
          m₁.installations = m.installations
      have hro' : ∀ m₁ m₂ key, key ∈ m.batch limit → J m₁ → RowChange decisionAtMs m₁ key m₂ →
          J m₂ := by
        intro m₁ m₂ key hk hm₁ hc
        refine ⟨hro _ _ m₁ m₂ key hr hk hm₁.2.1 hm₁.2.2 hm₁.1 hc, ?_⟩
        cases hc <;> exact hm₁.2
      have hre : J (sweep decisionAtMs (m.batch limit) 0
          { m with decisionTimeFloors := m.decisionTimeFloors.insertAll floors }).2 :=
        sweep_invariant hro' ⟨hra _ _ hr, rfl, rfl⟩ 0
      split
      next heq =>
        rw [batch, heq] at hre
        exact hre.1
      next heq =>
        rw [batch, heq] at hre
        exact hcr _ _ hre.1

end Xolotl.Source.SourceMemory
