import Xolotl.Lib.Window
import Xolotl.Source.Evidence
import Xolotl.Source.Fencing

/-! What a step does to one active scope: its declaration stays, its time floor never falls, and
whatever is forgotten about it lies behind the floor. -/

namespace Xolotl.Source

open Xolotl.Types Xolotl.State Word Window OrderedMap SourceMemory

variable {host : Host} {options : InMemoryOptions} {m m' : SourceMemory} {log : List Acceptance}
  {scope : ScopeName}

def SourceMemory.Active (m : SourceMemory) (scope : ScopeName) : Prop :=
  m.scopeEpoch scope.installation scope.projection = some scope.epoch

/-- The time below which no decision is made for the scope any more. -/
def SourceMemory.floor (m : SourceMemory) (scope : ScopeName) : Option Int :=
  m.decisionTimeFloors.get scope.epoch

/-! ## Floors and declarations -/

structure ScopeKept (m m' : SourceMemory) (scope : ScopeName) : Prop where
  active : m.Active scope
  declared : m'.declared scope = m.declared scope
  floor : Rises (m.floor scope) (m'.floor scope)

theorem active_congr (h : m'.installations = m.installations) :
    m'.Active scope ↔ m.Active scope := by
  rw [SourceMemory.Active, SourceMemory.Active, SourceMemory.scopeEpoch, SourceMemory.scopeEpoch, h]

theorem declared_congr
    (h : m'.installations.get ⟨scope.installation⟩ = m.installations.get ⟨scope.installation⟩) :
    m'.declared scope = m.declared scope := by
  rw [declared, declared, h]

theorem floor_displace (m' : SourceMemory) (hs : m.Stamped) {id : Text} (ha : m.Active scope)
    (ho : scope.installation ≠ id)
    (hf : m'.decisionTimeFloors = m.decisionTimeFloors.eraseAll
      (((m.installations.get ⟨id⟩).map fun r => r.scopeEpochs.entries.map Prod.snd).getD [])) :
    m'.floor scope = m.floor scope := by
  unfold SourceMemory.floor
  rw [hf, get_eraseAll, if_neg]
  intro hm
  cases hold : m.installations.get ⟨id⟩ with
  | none =>
    rw [hold] at hm
    cases hm
  | some old =>
    rw [hold] at hm
    obtain ⟨⟨projection, epoch⟩, he, rfl⟩ := List.mem_map.mp hm
    have hp : m.epochAt (.scope ⟨id⟩ projection) = some scope.epoch := by
      rw [epochAt, hold]
      exact mem_entries.mp he
    have hsa := hs.unique _ (.scope ⟨scope.installation⟩ ⟨scope.projection⟩) _ hp ha
    cases hsa
    exact ho rfl

theorem floor_maintain (m : SourceMemory) (decisionAtMs : Int) (limit : Nat) (scope : ScopeName) :
    Rises (m.floor scope) ((m.maintain decisionAtMs limit).2.floor scope) := by
  refine maintain_invariant (I := fun m₁ => Rises (m.floor scope) (m₁.floor scope))
    (.refl _) (fun floors touched hr => ?_) ?_ (fun _ _ h => h)
  · rw [SourceMemory.floor, SourceMemory.floor, hr.get]
    split
    next ht => exact rises_some (hr.above _ ht)
    next => exact .refl _
  · intro _ _ m₁ m₂ key _ _ _ _ hm₁ hc
    cases hc <;> exact hm₁

theorem Change.scope_kept (h : Change host options m log m') (hf : Fenced m)
    (hd : scope.epoch ≤ m.nextAuthorityEpoch) (ha : m'.Active scope) :
    ScopeKept m m' scope := by
  have hb : m.Active scope := active_of_active (h.draws hf.stamped) hd ha
  cases h with
  | none => exact ⟨hb, rfl, .refl _⟩
  | accept digest h =>
    refine ⟨hb, rfl, ?_⟩
    unfold SourceMemory.floor acceptedSource
    rw [get_insert]
    split
    next heq => exact rises_some (heq ▸ h.floor)
    next => exact .refl _
  | openStream | retireStream => exact ⟨hb, rfl, .refl _⟩
  | @install definition expected version high keys h =>
    have ho := installation_ne_of_install hf.stamped h hd ha
    have hk : (⟨definition.id⟩ : Key) ≠ ⟨scope.installation⟩ := fun heq =>
      ho (Key.mk.inj heq).symm
    refine ⟨hb, declared_congr (get_insert_of_ne _ _ hk), ?_⟩
    rw [floor_displace (m.replaced definition version high keys) hf.stamped hb ho rfl]
    exact .refl _
  | @uninstall id expected old keys h =>
    have ho := installation_ne_of_uninstall ha
    have hk : (⟨id⟩ : Key) ≠ ⟨scope.installation⟩ := fun heq => ho (Key.mk.inj heq).symm
    refine ⟨hb, declared_congr (get_erase_of_ne _ hk), ?_⟩
    rw [floor_displace (m.removed id old keys) hf.stamped hb ho (by rw [h.found]; rfl)]
    exact .refl _
  | maintain decisionAtMs limit =>
    refine ⟨hb, declared_congr ?_, floor_maintain m decisionAtMs limit scope⟩
    rw [(installations_maintain m decisionAtMs limit).1]

/-! ## What is forgotten -/

theorem floor_of_examined {decisionAtMs : Int} {keys : List Bytes} {touched : List UInt64}
    (hr : m.Raises decisionAtMs keys m'.decisionTimeFloors touched) {key : Bytes}
    (hk : key ∈ keys) (ha : m.Active scope)
    (hp : parseSourceScope key = .ok (scope.installation, scope.projection, scope.epoch)) :
    m'.floor scope = some decisionAtMs := by
  obtain ⟨installation, projection, epoch, hp', ht⟩ := hr.covers key hk
  cases hp.symm.trans hp'
  rw [SourceMemory.floor, hr.get, if_pos (ht ha)]

theorem Change.event_kept (h : Change host options m log m') {name : EventName}
    (hvalid : name.Valid) (ha : m'.Active name.scope) {record : AcceptedEvent}
    (hg : m.events.get name.key = some record) : m'.events.get name.key = some record ∨
      ∃ floor, m'.floor name.scope = some floor ∧ record.expiresAtMs < floor := by
  cases h with
  | none => exact .inl hg
  | @accept request decisionAtMs digest h =>
    by_cases hs : request.claim.name = name
    · subst hs
      exact .inr ⟨decisionAtMs, get_insert_self _ _ _, h.expired record hg⟩
    · have hk : request.claim.name.key ≠ name.key := fun heq =>
        hs (EventName.key_inj h.valid.1 hvalid.1 heq)
      exact .inl ((get_insert_of_ne _ _ hk).trans hg)
  | openStream | retireStream | install | uninstall => exact .inl hg
  | maintain decisionAtMs limit =>
    rw [active_congr (installations_maintain m decisionAtMs limit).1] at ha
    refine maintain_invariant (I := fun m₁ => m₁.events.get name.key = some record ∨
      ∃ floor, m₁.floor name.scope = some floor ∧ record.expiresAtMs < floor)
      (.inl hg) (fun _ _ _ => .inl hg) ?_ (fun _ _ h => h)
    rintro floors touched m₁ m₂ key hr hk rfl - hm₁ hc
    rcases hm₁ with hold | hp
    · cases hc with
      | none => exact .inl hold
      | event _ hfo he =>
        by_cases heq : key = name.key
        · subst heq
          cases hold.symm.trans hfo
          have hf := floor_of_examined hr hk ha (parseSourceScope_event hvalid)
          exact .inr ⟨decisionAtMs, hf, he⟩
        · exact .inl ((get_erase_of_ne _ heq).trans hold)
      | rate | stream => exact .inl hold
    · right
      cases hc <;> exact hp

theorem Change.rate_kept (h : Change host options m log m') (hn : scope.Named)
    (hep : scope.epoch ≠ 0) (ha : m'.Active scope)
    (ho : ∀ a ∈ log, a.request.claim.scope ≠ scope) :
    m'.rates.get (scope.key kindRate) = m.rates.get (scope.key kindRate) ∨
      ∃ record floor, m.rates.get (scope.key kindRate) = some record ∧
        m'.rates.get (scope.key kindRate) = Option.none ∧ m'.floor scope = some floor ∧
        record.expired floor = true := by
  cases h with
  | none => exact .inl rfl
  | @accept request decisionAtMs digest h =>
    have hk : request.claim.scope.key kindRate ≠ scope.key kindRate := fun heq =>
      ho _ List.mem_cons_self (ScopeName.key_inj h.valid.1.1 hn heq)
    left
    unfold acceptedSource rated
    split
    next => rfl
    next => exact get_insert_of_ne _ _ hk
  | openStream | retireStream | install | uninstall => exact .inl rfl
  | maintain decisionAtMs limit =>
    rw [active_congr (installations_maintain m decisionAtMs limit).1] at ha
    refine maintain_invariant (I := fun m₁ =>
      m₁.rates.get (scope.key kindRate) = m.rates.get (scope.key kindRate) ∨
        ∃ record floor, m.rates.get (scope.key kindRate) = some record ∧
          m₁.rates.get (scope.key kindRate) = Option.none ∧ m₁.floor scope = some floor ∧
          record.expired floor = true) (.inl rfl) (fun _ _ _ => .inl rfl) ?_ (fun _ _ h => h)
    rintro floors touched m₁ m₂ key hr hk rfl - hm₁ hc
    cases hc with
    | none | event | stream => exact hm₁
    | @rate record _ hf he =>
      by_cases heq : key = scope.key kindRate
      · subst heq
        rcases hm₁ with hold | ⟨_, _, -, hno, -⟩
        · have hfl := floor_of_examined hr hk ha (parseSourceScope_rate hn hep)
          exact .inr ⟨record, decisionAtMs, hold.symm.trans hf, get_erase_self _ _, hfl, he⟩
        · rw [hno] at hf
          cases hf
      · have hs := get_erase_of_ne m₁.rates heq
        rw [hs]
        exact hm₁

end Xolotl.Source
