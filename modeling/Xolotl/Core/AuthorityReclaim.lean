import Xolotl.Core.AuthorityBalance

/-! What the four table operations do to a balanced table: the reclaim loop only
vacates released slots that nothing refers to, an install takes a vacant slot,
and each operation restores the balance. -/

namespace Xolotl.Core

open Finset HandleSlot
namespace HandleTable

/-! ## Reclaiming -/

/-- `t'` is `t` with some unused released slots vacated. -/
structure Trimmed (t t' : HandleTable) : Prop where
  length : t'.slots.length = t.slots.length
  handle : ∀ j, t'.handleAt j = { t.handleAt j with slot := t'.slotAt j } ∧
    (t'.slotAt j).generation = (t.slotAt j).generation
  slot : ∀ j, ((t'.slotAt j).state = (t.slotAt j).state ∧
      (t'.slotAt j).parent = (t.slotAt j).parent) ∨
    ((t.slotAt j).state = .released ∧ (t'.slotAt j).state = .vacant)
  live : ∀ key, t'.Live key ↔ t.Live key

theorem Trimmed.refl (t : HandleTable) : Trimmed t t :=
  ⟨rfl, fun _ => ⟨rfl, rfl⟩, fun _ => .inl ⟨rfl, rfl⟩, fun _ => Iff.rfl⟩

theorem Trimmed.trans {t₁ t₂ t₃ : HandleTable} (h₁ : Trimmed t₁ t₂) (h₂ : Trimmed t₂ t₃) :
    Trimmed t₁ t₃ := by
  refine ⟨h₂.length.trans h₁.length, fun j => ⟨?_, ?_⟩, fun j => ?_,
    fun key => (h₂.live key).trans (h₁.live key)⟩
  · rw [(h₂.handle j).1, (h₁.handle j).1]
  · exact (h₂.handle j).2.trans (h₁.handle j).2
  · rcases h₂.slot j with ⟨hs₂, hp₂⟩ | ⟨hs₂, hv₂⟩
    · rcases h₁.slot j with ⟨hs₁, hp₁⟩ | ⟨hs₁, hv₁⟩
      · exact .inl ⟨hs₂.trans hs₁, hp₂.trans hp₁⟩
      · exact .inr ⟨hs₁, hs₂.trans hv₁⟩
    · rcases h₁.slot j with ⟨hs₁, -⟩ | ⟨-, hv₁⟩
      · exact .inr ⟨hs₁ ▸ hs₂, hv₂⟩
      · rw [hv₁] at hs₂
        cases hs₂

variable {t t' : HandleTable} {key : HandleKey} {i owner resource : Nat} {s : HandleSlot}
  {parent : Option HandleKey} {methods : BitVec 64}

theorem Anchored.of_retained (h : t.Anchored key)
    (hke : ∀ k, t.Anchored k → (k = key ∨ ∃ j, (t.slotAt j).parent = some k) →
      (t'.slotAt k.slot).retains k.generation = true ∧
      (t'.slotAt k.slot).parent = (t.slotAt k.slot).parent) : t'.Anchored key := by
  induction h with
  | root hky hpa =>
    obtain ⟨hr, hp⟩ := hke _ (.root hky hpa) (.inl rfl)
    exact .root hr (hp.trans hpa)
  | child hky hpa ha ih =>
    obtain ⟨hr, hp⟩ := hke _ (.child hky hpa ha) (.inl rfl)
    refine .child hr (hp.trans hpa) (ih fun k hk hor => hke k hk (.inr ?_))
    rcases hor with rfl | hj
    · exact ⟨_, hpa⟩
    · exact hj

theorem anchored_modifySlot (hi : i < t.slots.length)
    (hs : s.generation = (t.slotAt i).generation ∧ s.parent = (t.slotAt i).parent ∧
      (s.state = .vacant ↔ (t.slotAt i).state = .vacant)) (key : HandleKey) :
    (t.modifySlot i s).Anchored key ↔ t.Anchored key := by
  obtain ⟨hg, hp, hst⟩ := hs
  have hsa : ∀ j g, ((t.modifySlot i s).slotAt j).retains g = (t.slotAt j).retains g ∧
      ((t.modifySlot i s).slotAt j).parent = (t.slotAt j).parent := by
    intro j g
    refine ⟨keeps_modifySlot hi (·.retains g) ?_ j, keeps_modifySlot hi parent hp j⟩
    simp [HandleSlot.retains, hg, hst, bne, beq_eq_decide]
  refine ⟨fun h => h.of_retained fun k hk _ => ?_, fun h => h.of_retained fun k hk _ => ?_⟩
  · obtain ⟨h₁, h₂⟩ := hsa k.slot k.generation
    exact ⟨h₁ ▸ hk.retains, h₂.symm⟩
  · obtain ⟨h₁, h₂⟩ := hsa k.slot k.generation
    exact ⟨h₁ ▸ hk.retains, h₂⟩

abbrev Childless (t : HandleTable) (i : Nat) : Prop :=
  ∀ j, (t.slotAt j).parent ≠ some ⟨i, (t.slotAt i).generation⟩

theorem anchored_vacate (hi : i < t.slots.length) (hn : t.Childless i) (hs : s.state = .vacant)
    (hke : key ≠ ⟨i, (t.slotAt i).generation⟩) :
    (t.modifySlot i s).Anchored key ↔ t.Anchored key := by
  have hat : ∀ j, j ≠ i → (t.modifySlot i s).slotAt j = t.slotAt j := fun j hj => by
    rw [slotAt_modifySlot hi, if_neg hj]
  have hse : (t.modifySlot i s).slotAt i = s := by rw [slotAt_modifySlot hi, if_pos rfl]
  refine ⟨fun h => h.of_retained fun k hk _ => ?_, fun h => h.of_retained fun k hk hor => ?_⟩
  · have hki : k.slot ≠ i := fun hki => by
      have := (retains_iff.mp hk.retains).1
      rw [hki, hse] at this
      exact this hs
    have hr := hk.retains
    rw [hat _ hki] at hr ⊢
    exact ⟨hr, rfl⟩
  · have hki : k.slot ≠ i := fun hki => by
      have hk' : k = ⟨i, (t.slotAt i).generation⟩ := by
        have hg := (retains_iff.mp hk.retains).2
        rw [hki] at hg
        rw [hg, ← hki]
      rcases hor with rfl | ⟨j, hj⟩
      · exact hke hk'
      · exact hn j (hk' ▸ hj)
    rw [hat _ hki]
    exact ⟨hk.retains, rfl⟩

theorem live_modifySlot (hi : i < t.slots.length)
    (hs : s.generation = (t.slotAt i).generation ∧ s.parent = (t.slotAt i).parent ∧
      (s.state = .vacant ↔ (t.slotAt i).state = .vacant))
    (hm : key.slot = i → s.isMatch key.generation = (t.slotAt i).isMatch key.generation) :
    (t.modifySlot i s).Live key ↔ t.Live key := by
  rw [Live, Live, anchored_modifySlot hi hs, slotAt_modifySlot hi]
  by_cases hj : key.slot = i
  · rw [if_pos hj, hm hj, hj]
  · rw [if_neg hj]

theorem childrenOf_eq_empty_iff : t.childrenOf key = ∅ ↔ ∀ j, (t.slotAt j).parent ≠ some key := by
  rw [eq_empty_iff_forall_notMem]
  refine ⟨fun h j hj => ?_, fun h j hj => h j (mem_childrenOf.mp hj).2⟩
  by_cases hl : j < t.slots.length
  · exact h j (mem_childrenOf.mpr ⟨hl, hj⟩)
  · rw [slotAt_of_le (not_lt.mp hl)] at hj
    cases hj

theorem detachChild_cases (s : HandleSlot) (g : Nat) :
    ((s.retains g = false ∨ s.children = 0) ∧ s.detachChild g = (.unchanged, s)) ∨
    (s.retains g = true ∧ 0 < s.children ∧ (s.state = .released → 1 < s.children) ∧
      s.detachChild g = (.retained, { s with children := s.children - 1 })) ∨
    (s.retains g = true ∧ s.children = 1 ∧ s.state = .released ∧
      s.detachChild g =
        (.reclaimed s.parent, { s with state := .vacant, children := 0, parent := none })) := by
  unfold detachChild reclaim
  by_cases hr : s.retains g = true
  · by_cases h0 : s.children = 0
    · exact .inl ⟨.inr h0, by simp [h0]⟩
    · refine .inr ?_
      by_cases hre : s.children - 1 = 0 ∧ s.state = .released
      · refine .inr ⟨hr, by omega, hre.2, ?_⟩
        simp [hr, h0, hre]
      · refine .inl ⟨hr, by omega, fun hs => ?_, ?_⟩
        · have : s.children - 1 ≠ 0 := fun h => hre ⟨h, hs⟩
          omega
        · simp only [hr, Bool.not_true, Bool.false_or, beq_iff_eq, h0, if_false, hre]
  · exact .inl ⟨.inl (by simpa using hr), by simp [hr]⟩

def pendingOf : HandleSlotChange → Option HandleKey
  | .reclaimed parent => parent
  | _ => none

theorem occupied_modifySlot_lt (hi : (t.slotAt i).state ≠ .vacant) (hs : s.state = .vacant) :
    (t.modifySlot i s).occupied < t.occupied := by
  have hl := lt_length_of_not_vacant hi
  refine card_lt_card (ssubset_iff_of_subset ?_ |>.mpr ⟨i, ?_, ?_⟩)
  · intro j hj
    simp only [mem_filter, length_modifySlot, slotAt_modifySlot hl] at hj ⊢
    refine ⟨hj.1, ?_⟩
    by_cases hji : j = i
    · rw [hji]
      exact hi
    · simpa [hji] using hj.2
  · simp [hl, hi]
  · simp [slotAt_modifySlot hl, hs]

theorem occupied_le (t : HandleTable) : t.occupied ≤ t.slots.length := by
  refine le_trans (card_filter_le _ _) ?_
  rw [card_range]

def vacated (s : HandleSlot) : HandleSlot := { generation := s.generation }

theorem live_vacate (hi : i < t.slots.length) (hn : t.Childless i)
    (hk : key ≠ ⟨i, (t.slotAt i).generation⟩) :
    (t.modifySlot i (vacated (t.slotAt i))).Live key ↔ t.Live key := by
  rw [Live, Live, slotAt_modifySlot hi, anchored_vacate hi hn rfl hk]
  by_cases hj : key.slot = i
  · have hold : (t.slotAt key.slot).isMatch key.generation = false := by
      by_contra hm
      have hg := (isMatch_iff.mp (by simpa using hm)).2
      rw [hj] at hg
      apply hk
      rw [hg, ← hj]
    have hne : (vacated (t.slotAt i)).isMatch key.generation = false := rfl
    rw [if_pos hj, hold, hne]
  · rw [if_neg hj]

theorem trimmed_vacate (hi : (t.slotAt i).state = .released) (hn : t.Childless i) :
    Trimmed t (t.modifySlot i (vacated (t.slotAt i))) := by
  have hl := lt_length_of_not_vacant (t := t) (i := i) (by simp [hi])
  refine ⟨length_modifySlot _ _ _, fun j => ?_, fun j => ?_, fun key => ?_⟩
  · rw [handleAt_modifySlot hl, slotAt_modifySlot hl]
    by_cases hj : j = i
    · simp [hj, vacated]
    · simp [hj, slotAt]
  · rw [slotAt_modifySlot hl]
    by_cases hj : j = i
    · simp [hj, hi, vacated]
    · simp [hj]
  · by_cases hk : key = ⟨i, (t.slotAt i).generation⟩
    · simp [hk, Live, slotAt_modifySlot hl, vacated, isMatch, hi]
    · exact live_vacate hl hn hk

theorem trimmed_children (hi : i < t.slots.length) (n : Nat) :
    Trimmed t (t.modifySlot i { t.slotAt i with children := n }) := by
  refine ⟨length_modifySlot _ _ _, fun j => ?_, fun j => ?_, fun key => ?_⟩
  · rw [handleAt_modifySlot hi, slotAt_modifySlot hi]
    by_cases hj : j = i
    · simp [hj]
    · simp [hj, slotAt]
  · rw [slotAt_modifySlot hi]
    by_cases hj : j = i <;> simp [hj]
  · exact live_modifySlot hi ⟨rfl, rfl, Iff.rfl⟩ fun _ => rfl

theorem modifySlot_slotAt (t : HandleTable) (i : Nat) : t.modifySlot i (t.slotAt i) = t := by
  obtain ⟨slots⟩ := t
  simp only [modifySlot, HandleTable.mk.injEq]
  apply List.ext_getElem?
  intro j
  by_cases hj : i = j
  · subst hj
    cases h : slots[i]? <;> simp [slotAt, handleAt, h]
  · simp [hj]

theorem Balanced.detach {p : HandleKey} {change : HandleSlotChange} (h : Balanced t (some p))
    (hd : (t.slotAt p.slot).detachChild p.generation = (change, s)) :
    Balanced (t.modifySlot p.slot s) (pendingOf change) ∧ Trimmed t (t.modifySlot p.slot s) ∧
      (pendingOf change ≠ none → (t.modifySlot p.slot s).occupied < t.occupied) := by
  have hk : ∀ {q : HandleKey}, (t.slotAt q.slot).generation = q.generation →
      (⟨q.slot, (t.slotAt q.slot).generation⟩ : HandleKey) = q := by
    rintro ⟨_, _⟩ hq
    rw [hq]
  rcases detachChild_cases (t.slotAt p.slot) p.generation with
    ⟨hst, heq⟩ | ⟨hr, hpos, hre, heq⟩ | ⟨hr, ho, hre, heq⟩
  · rw [heq] at hd
    cases hd
    rw [modifySlot_slotAt]
    refine ⟨h.drop_pending ?_, .refl t, fun hne => absurd rfl hne⟩
    by_contra hr
    have hr' := retains_iff.mp (by simpa using hr)
    have hc := h.counted p.slot hr'.1
    rw [if_pos (by rw [hk hr'.2])] at hc
    rcases hst with hs | hs
    · exact hr hs
    · omega
  · rw [heq] at hd
    cases hd
    have hr' := retains_iff.mp hr
    have hc := h.counted p.slot hr'.1
    rw [if_pos (by rw [hk hr'.2])] at hc
    refine ⟨h.adjust hr'.1 ⟨rfl, hr'.1, rfl⟩ (fun hs => ?_) ?_ fun j hj => ?_,
      trimmed_children (lt_length_of_not_vacant hr'.1) _, fun hne => absurd rfl hne⟩
    · have := hre hs
      show 0 < (t.slotAt p.slot).children - 1
      omega
    · show (t.slotAt p.slot).children - 1 = _
      rw [hc]
      simp [pendingOf]
    · simp only [pendingOf, reduceCtorEq, false_iff]
      rintro ⟨⟩
      exact hj rfl
  · rw [heq] at hd
    cases hd
    have hr' := retains_iff.mp hr
    have hc := h.counted p.slot hr'.1
    rw [if_pos (by rw [hk hr'.2])] at hc
    have he : t.childrenOf ⟨p.slot, (t.slotAt p.slot).generation⟩ = ∅ := card_eq_zero.mp (by omega)
    exact ⟨h.vacate hr'.1 (.inr ⟨p.generation, rfl⟩) ⟨rfl, rfl, rfl, rfl⟩,
      trimmed_vacate hre (childrenOf_eq_empty_iff.mp he),
      fun _ => occupied_modifySlot_lt hr'.1 rfl⟩

theorem Balanced.reclaimAncestors {fuel : Nat} {change : HandleSlotChange}
    (h : Balanced t (pendingOf change)) (hf : pendingOf change ≠ none → t.occupied < fuel) :
    Balanced (reclaimAncestors fuel t change) none ∧ Trimmed t (reclaimAncestors fuel t change)
    := by
  induction fuel generalizing t change with
  | zero =>
    rcases hp : pendingOf change with _ | p
    · rw [hp] at h
      exact ⟨h, .refl t⟩
    · exact absurd (hf (by simp [hp])) (Nat.not_lt_zero _)
  | succ fuel ih =>
    cases change with
    | unchanged | retained => exact ⟨h, .refl t⟩
    | reclaimed parent =>
      cases parent with
      | none => exact ⟨h, .refl t⟩
      | some p =>
        change Balanced t (some p) at h
        rw [HandleTable.reclaimAncestors]
        by_cases hl : p.slot < t.slots.length
        · simp only [getElem?_eq_handleAt hl]
          rcases hd : (t.handleAt p.slot).slot.detachChild p.generation with ⟨change, s⟩
          obtain ⟨hb, ht, ho⟩ := h.detach hd
          have hf' := hf (by simp [pendingOf])
          obtain ⟨hb', ht'⟩ := ih hb fun hne => by
            have := ho hne
            omega
          exact ⟨hb', ht.trans ht'⟩
        · have hn : t.slots[p.slot]? = none := List.getElem?_eq_none (not_lt.mp hl)
          simp only [hn]
          refine ⟨h.drop_pending ?_, .refl t⟩
          rw [slotAt_of_le (not_lt.mp hl)]
          rfl

/-! ## Release and revoke -/

structure Kept (t t' : HandleTable) : Prop where
  handle : ∀ j, t'.handleAt j = { t.handleAt j with slot := t'.slotAt j } ∧
    (t'.slotAt j).generation = (t.slotAt j).generation
  slot : ∀ j, (t'.slotAt j).state ≠ .vacant →
    (t.slotAt j).state ≠ .vacant ∧ (t'.slotAt j).parent = (t.slotAt j).parent

structure Dropped (t t' : HandleTable) (key : HandleKey) : Prop extends Kept t t' where
  active : ∀ j, (t'.slotAt j).state = .active →
    (t.slotAt j).state = .active ∧ ⟨j, (t.slotAt j).generation⟩ ≠ key

theorem Dropped.of_trimmed (hk : (t.slotAt key.slot).retains key.generation = true)
    (hs : s.generation = (t.slotAt key.slot).generation ∧ s.state ≠ .active ∧
      (s.state ≠ .vacant → s.parent = (t.slotAt key.slot).parent))
    (h : Trimmed (t.modifySlot key.slot s) t') : Dropped t t' key := by
  obtain ⟨hr, hg⟩ := retains_iff.mp hk
  have hl := lt_length_of_not_vacant hr
  have hat := slotAt_modifySlot hl s
  have hsl : ∀ j, (t'.slotAt j).state ≠ .vacant →
      (t'.slotAt j).state = ((t.modifySlot key.slot s).slotAt j).state ∧
      (t'.slotAt j).parent = ((t.modifySlot key.slot s).slotAt j).parent := by
    intro j hj
    rcases h.slot j with hsa | ⟨-, hv⟩
    · exact hsa
    · exact absurd hv hj
  refine ⟨⟨fun j => ⟨?_, ?_⟩, fun j hj => ?_⟩, fun j hj => ?_⟩
  · rw [(h.handle j).1, handleAt_modifySlot hl]
    by_cases hjk : j = key.slot <;> simp [hjk]
  · rw [(h.handle j).2, keeps_modifySlot hl generation hs.1]
  · obtain ⟨hst, hp⟩ := hsl j hj
    rcases eq_or_ne j key.slot with rfl | hjk
    · rw [hat, if_pos rfl] at hst hp
      exact ⟨hr, hp.trans (hs.2.2 (hst ▸ hj))⟩
    · rw [hat, if_neg hjk] at hst hp
      exact ⟨hst ▸ hj, hp⟩
  · obtain ⟨hst, -⟩ := hsl j (by simp [hj])
    rw [hat] at hst
    split at hst
    · exact absurd (hst ▸ hj) hs.2.1
    · next hjk =>
      refine ⟨hst ▸ hj, ?_⟩
      rintro rfl
      exact hjk rfl

theorem localHandle_ok {h : Handle}
    (hl : t.localHandle key owner = .ok h) : h = t.handleAt key.slot ∧
      (t.slotAt key.slot).retains key.generation = true ∧ h.owner = owner := by
  unfold localHandle at hl
  split at hl
  · cases hl
  · next h' hg =>
    obtain rfl := handleAt_of_getElem? hg
    split at hl
    · cases hl
    · next hr =>
      split at hl
      · cases hl
      · next ho =>
        cases hl
        exact ⟨rfl, by simpa [slotAt] using hr, by simpa using ho⟩

theorem Balanced.vacate_reclaim (hb : Balanced t none)
    (hi : (t.slotAt i).state ≠ .vacant) :
    let t' := HandleTable.reclaimAncestors t.slots.length (t.modifySlot i (vacated (t.slotAt i)))
      (.reclaimed (t.slotAt i).parent)
    Balanced t' none ∧ Trimmed (t.modifySlot i (vacated (t.slotAt i))) t' := by
  have hv := hb.vacate (s := vacated (t.slotAt i)) hi (.inl rfl) ⟨rfl, rfl, rfl, rfl⟩
  refine Balanced.reclaimAncestors hv fun _ => ?_
  have h₁ := occupied_modifySlot_lt (s := vacated (t.slotAt i)) hi rfl
  have h₂ := t.occupied_le
  omega

theorem Balanced.revoke (hb : Balanced t none) (h : t.revoke key owner = .ok t') :
    Balanced t' none ∧ Dropped t t' key ∧ (t.slotAt key.slot).retains key.generation = true ∧
      (t'.slotAt key.slot).state = .vacant := by
  unfold HandleTable.revoke at h
  split at h
  · cases h
  · next hd hl =>
    obtain ⟨rfl, hr, -⟩ := localHandle_ok hl
    have hre : (t.handleAt key.slot).slot.revoke key.generation =
        (.reclaimed (t.slotAt key.slot).parent, vacated (t.slotAt key.slot)) := by
      rw [show (t.handleAt key.slot).slot = t.slotAt key.slot from rfl, HandleSlot.revoke, hr]
      rfl
    rw [hre] at h
    cases h
    have hi := (retains_iff.mp hr).1
    obtain ⟨hb', ht⟩ := hb.vacate_reclaim hi
    have hdr := Dropped.of_trimmed (s := vacated (t.slotAt key.slot)) hr
      ⟨rfl, by simp [vacated], fun h => absurd rfl h⟩ ht
    refine ⟨hb', hdr, hr, ?_⟩
    rcases ht.slot key.slot with ⟨hs, -⟩ | ⟨-, hv⟩
    · rw [hs, slotAt_modifySlot (lt_length_of_not_vacant hi), if_pos rfl]
      rfl
    · exact hv

theorem release_slot_cases (s : HandleSlot) (g : Nat) :
    (s.isMatch g = false ∧ s.release g = (.unchanged, s)) ∨
    (s.isMatch g = true ∧ s.children = 0 ∧ s.release g = (.reclaimed s.parent, vacated s)) ∨
    (s.isMatch g = true ∧ 0 < s.children ∧
      s.release g = (.retained, { s with state := .released })) := by
  unfold HandleSlot.release
  by_cases hm : s.isMatch g = true
  · by_cases hc : s.children = 0
    · exact .inr (.inl ⟨hm, hc, by simp [hm, hc, reclaim, vacated]⟩)
    · exact .inr (.inr ⟨hm, by omega, by simp [hm, hc]⟩)
  · exact .inl ⟨by simpa using hm, by simp [hm]⟩

theorem Balanced.release (hb : Balanced t none) (h : t.release key owner = .ok t') :
    Balanced t' none ∧ Dropped t t' key ∧ (t.slotAt key.slot).isMatch key.generation = true ∧
      ∀ k, k ≠ key → (t'.Live k ↔ t.Live k) := by
  unfold HandleTable.release at h
  split at h
  · cases h
  · next hd hl =>
    obtain ⟨rfl, hr, -⟩ := localHandle_ok hl
    rw [show (t.handleAt key.slot).slot = t.slotAt key.slot from rfl] at h
    obtain ⟨hi, hge⟩ := retains_iff.mp hr
    have hle := lt_length_of_not_vacant hi
    have hke : (⟨key.slot, (t.slotAt key.slot).generation⟩ : HandleKey) = key := by rw [hge]
    have hcn := hb.counted key.slot hi
    rcases release_slot_cases (t.slotAt key.slot) key.generation with ⟨-, heq⟩ | ⟨hm, hc, heq⟩ |
      ⟨hm, hc, heq⟩
    · rw [heq] at h
      cases h
    · rw [heq] at h
      cases h
      obtain ⟨hb', ht⟩ := hb.vacate_reclaim hi
      have hn : t.Childless key.slot :=
        childrenOf_eq_empty_iff.mp (card_eq_zero.mp (by omega))
      have hdr := Dropped.of_trimmed (s := vacated (t.slotAt key.slot)) hr
        ⟨rfl, by simp [vacated], fun h => absurd rfl h⟩ ht
      refine ⟨hb', hdr, hm, fun k hk => ?_⟩
      rw [ht.live, live_vacate hle hn (hke ▸ hk)]
    · rw [heq] at h
      have ht' : t' = t.modifySlot key.slot { t.slotAt key.slot with state := .released } := by
        rcases hl : t.slots.length with _ | n
        · omega
        · rw [hl] at h
          cases h
          rfl
      subst ht'
      have hb' := hb.adjust (s := { t.slotAt key.slot with state := .released })
        hi ⟨rfl, by simp, rfl⟩ (fun _ => hc) hcn (fun j _ => Iff.rfl)
      have hdr := Dropped.of_trimmed (s := { t.slotAt key.slot with state := .released }) hr
        ⟨rfl, by simp, fun _ => rfl⟩ (.refl _)
      refine ⟨hb', hdr, hm, fun k hk => ?_⟩
      refine live_modifySlot hle ⟨rfl, rfl, by simp [hi]⟩ fun hj => ?_
      have hg : ((t.slotAt key.slot).generation == k.generation) = false := by
        refine beq_eq_false_iff_ne.mpr fun hg => hk ?_
        rw [← hke, hg, ← hj]
      simp [isMatch, hg]

/-! ## Install and derive -/

structure Issued (t t' : HandleTable) (owner resource : Nat) (methods : BitVec 64)
    (parent : Option HandleKey) (key : HandleKey) : Prop where
  length : t'.slots.length = t.slots.length
  vacant : (t.slotAt key.slot).state = .vacant
  slot_lt : key.slot < t.slots.length
  generation : key.generation = (t.slotAt key.slot).generation + 1
  parent_active : ∀ p, parent = some p → (t.slotAt p.slot).isMatch p.generation = true
  issued : t'.handleAt key.slot = { owner, resource, methods, slot :=
    { generation := key.generation, state := .active, parent,
      children := (t.slotAt key.slot).children } }
  parent_slot : ∀ p, parent = some p → t'.handleAt p.slot =
    { t.handleAt p.slot with slot :=
      { t.slotAt p.slot with children := (t.slotAt p.slot).children + 1 } }
  other : ∀ j, j ≠ key.slot → (∀ p, parent = some p → j ≠ p.slot) → t'.handleAt j = t.handleAt j

theorem handleAt_set (hi : i < t.slots.length) (h : Handle) (j : Nat) :
    (HandleTable.mk (t.slots.set i h)).handleAt j = if j = i then h else t.handleAt j := by
  by_cases hj : j = i
  · simp [handleAt, hj, List.getElem?_set_self hi]
  · simp [handleAt, hj, List.getElem?_set_ne (Ne.symm hj)]

theorem attachChild_ok {s' : HandleSlot} {g : Nat} (h : s.attachChild g = .ok s') :
    s.isMatch g = true ∧ s' = { s with children := s.children + 1 } := by
  unfold attachChild at h
  split at h
  · cases h
  · next hm =>
    split at h
    · cases h
    · cases h
      exact ⟨by simpa using hm, rfl⟩

theorem install_slot_ok {s' : HandleSlot} {g : Nat}
    (h : s.install parent = .ok (s', g)) : s.reusable = true ∧ g = s.generation + 1 ∧
      s' = { s with generation := s.generation + 1, state := .active, parent } := by
  unfold HandleSlot.install at h
  split at h
  · cases h
  · next hr =>
    split at h
    · cases h
    · cases h
      exact ⟨by simpa using hr, rfl, rfl⟩

theorem issued_of_installWithParent
    (h : t.installWithParent owner resource methods parent = .ok (t', key)) :
    Issued t t' owner resource methods parent key := by
  unfold installWithParent at h
  simp only [bind, Except.bind] at h
  rcases hf : t.slots.findIdx? fun h => h.slot.reusable with _ | index
  · simp only [hf, reduceCtorEq] at h
  rcases hge : t.slots[index]? with _ | handle
  · simp only [hf, hge] at h
    split at h <;> cases h
  obtain ⟨hl, -⟩ := List.getElem?_eq_some_iff.mp hge
  obtain rfl := handleAt_of_getElem? hge
  rcases hi : (t.handleAt index).slot.install parent with e | ⟨authority, generation⟩
  · simp only [hf, hge, hi] at h
    split at h <;> cases h
  obtain ⟨hre, hg, ha⟩ := install_slot_ok hi
  have hv : (t.slotAt index).state = .vacant := by
    simp only [reusable, Bool.and_eq_true, beq_iff_eq] at hre
    exact hre.1
  simp only [hf, hge, hi] at h
  split at h
  · cases h
  cases parent with
  | none =>
    cases h
    refine ⟨by simp, hv, hl, hg, by simp, ?_, by simp, fun j hj _ => ?_⟩
    · rw [handleAt_set hl, if_pos rfl, ha, hg]
      rfl
    · rw [handleAt_set hl, if_neg hj]
  | some p =>
    rcases hp : t.slots[p.slot]? with _ | ph
    · simp [hp] at h
    obtain ⟨hpl, -⟩ := List.getElem?_eq_some_iff.mp hp
    obtain rfl := handleAt_of_getElem? hp
    simp only [hp] at h
    rcases hat : (t.handleAt p.slot).slot.attachChild p.generation with e | s
    · simp [hat] at h
    obtain ⟨hm, hs⟩ := attachChild_ok hat
    simp only [hat] at h
    cases h
    have hne : index ≠ p.slot := by
      rintro rfl
      have hac := (isMatch_iff.mp hm).1
      rw [show (t.handleAt p.slot).slot = t.slotAt p.slot from rfl, hv] at hac
      cases hac
    have hl' : index < (t.modifySlot p.slot s).slots.length := by simpa using hl
    refine ⟨by simp, hv, hl, hg, ?_, ?_, ?_, fun j hj hjp => ?_⟩
    · rintro q ⟨⟩
      exact hm
    · rw [handleAt_set hl', if_pos rfl, ha, hg]
      rfl
    · rintro q ⟨⟩
      rw [handleAt_set hl', if_neg hne.symm, handleAt_modifySlot hpl, if_pos rfl, hs]
      rfl
    · rw [handleAt_set hl', if_neg hj, handleAt_modifySlot hpl, if_neg (hjp p rfl)]

namespace Issued

variable (h : Issued t t' owner resource methods parent key) {j : Nat}

include h

theorem slotAt_self : t'.slotAt key.slot =
    ⟨key.generation, .active, parent, (t.slotAt key.slot).children⟩ := by
  rw [slotAt, h.issued]

theorem handleAt_other (hj : j ≠ key.slot) : t'.handleAt j = { t.handleAt j with
    slot := { t.slotAt j with
      children := (t.slotAt j).children +
        if parent.map HandleKey.slot = some j then 1 else 0 } } := by
  by_cases hjp : parent.map HandleKey.slot = some j
  · obtain ⟨p, hp, rfl⟩ := Option.map_eq_some_iff.mp hjp
    rw [if_pos hjp, h.parent_slot p hp]
  · rw [if_neg hjp, h.other j hj fun p hp hne => hjp (by rw [hp, hne]; rfl)]
    rfl

theorem slotAt_other (hj : j ≠ key.slot) : t'.slotAt j = { t.slotAt j with
    children := (t.slotAt j).children + if parent.map HandleKey.slot = some j then 1 else 0 } := by
  rw [slotAt, h.handleAt_other hj]

theorem generation_le (j : Nat) : (t.slotAt j).generation ≤ (t'.slotAt j).generation := by
  rcases eq_or_ne j key.slot with rfl | hj
  · rw [h.slotAt_self, h.generation]
    exact Nat.le_succ _
  · rw [h.slotAt_other hj]

end Issued

theorem Balanced.issue (hb : Balanced t none) (h : Issued t t' owner resource methods parent key)
    (han : ∀ p, parent = some p → t.Anchored p) : Balanced t' none := by
  have hc := hb.vacant_clean key.slot h.vacant
  have hse := h.slotAt_self
  rw [hc.2] at hse
  have hn : ∀ j, parent.map HandleKey.slot = some j → (t.slotAt j).state = .active ∧
      parent = some ⟨j, (t.slotAt j).generation⟩ := by
    intro j hj
    obtain ⟨p, rfl, rfl⟩ := Option.map_eq_some_iff.mp hj
    obtain ⟨ha, hg⟩ := isMatch_iff.mp (h.parent_active p rfl)
    exact ⟨ha, by rw [hg]⟩
  have hva : ∀ j, (t.slotAt j).state = .vacant → parent.map HandleKey.slot ≠ some j := by
    intro j hj hp
    have ha := (hn j hp).1
    rw [hj] at ha
    cases ha
  have ht : ∀ j, Tidy (t'.slotAt j) := by
    intro j
    rcases eq_or_ne j key.slot with rfl | hj
    · rw [hse]
      exact ⟨nofun, nofun⟩
    · rw [h.slotAt_other hj]
      refine ⟨fun hs => ?_, fun hs => Nat.add_pos_left (hb.released_held j hs) _⟩
      rw [if_neg (hva j hs)]
      exact hb.vacant_clean j hs
  have hch : ∀ k, t'.childrenOf k =
      if parent = some k then insert key.slot (t.childrenOf k) else t.childrenOf k := by
    intro k
    ext j
    rw [mem_childrenOf, h.length]
    rcases eq_or_ne j key.slot with rfl | hj
    · rw [hse]
      split
      · next hk => simp [hk, h.slot_lt]
      · next hk => simp [hk, mem_childrenOf, hc.1]
    · rw [h.slotAt_other hj]
      rw [← mem_childrenOf]
      split <;> simp [hj]
  have hf : t.childrenOf key = ∅ := by
    refine childrenOf_eq_empty_iff.mpr fun j hj => ?_
    have := (hb.parent_old j key hj).1
    have := h.generation
    omega
  refine ⟨fun j => (ht j).1, fun j => (ht j).2, ?_, ?_, ?_⟩
  · intro j hj
    simp only [reduceCtorEq, if_false, Nat.add_zero]
    rcases eq_or_ne j key.slot with rfl | hjk
    · have hne : parent ≠ some key := fun hp => hva key.slot h.vacant (by rw [hp]; rfl)
      rw [hse, hch, if_neg hne, hf]
      rfl
    · rw [h.slotAt_other hjk] at hj ⊢
      have hcn := hb.counted j hj
      simp only [reduceCtorEq, if_false] at hcn
      rw [hch, hcn]
      by_cases hp : parent.map HandleKey.slot = some j
      · have hm : key.slot ∉ t.childrenOf ⟨j, (t.slotAt j).generation⟩ := by
          rw [mem_childrenOf, hc.1]
          simp
        rw [if_pos hp, if_pos (hn j hp).2, card_insert_of_notMem hm]
      · rw [if_neg hp, if_neg fun heq => hp (by rw [heq]; rfl)]
        rfl
  · intro j p hp
    rw [h.length]
    rcases eq_or_ne j key.slot with rfl | hjk
    · rw [hse] at hp
      have ha := isMatch_iff.mp (h.parent_active p hp)
      exact ⟨ha.2.symm.le.trans (h.generation_le _), lt_length_of_not_vacant (by simp [ha.1])⟩
    · rw [h.slotAt_other hjk] at hp
      exact ⟨(hb.parent_old j p hp).1.trans (h.generation_le _), (hb.parent_old j p hp).2⟩
  · intro j
    have hup : ∀ x, x ≠ key.slot → t'.up x = t.up x := fun x hx => by
      rw [up, up, h.slotAt_other hx]
    have hu : t'.up key.slot = parent.map HandleKey.slot := by rw [up, hse]
    rcases hp : parent with _ | p
    · refine (hb.ends j).of_sub fun x => ?_
      by_cases hx : x = key.slot
      · exact .inr (by rw [hx, hu, hp]; rfl)
      · exact .inl (hup x hx)
    · refine Walk.Ends.of_edge hup (by rw [hu, hp]; rfl) (fun hv => ?_) hb.ends j
      exact (han p hp).not_vacant hv h.vacant

theorem get_ok {pending : Option HandleKey} (hb : Balanced t pending) {h : Handle}
    (hg : t.get key owner = .ok h) : t.Live key ∧ h = t.handleAt key.slot ∧ h.owner = owner := by
  classical
  rw [hb.get_eq] at hg
  split at hg
  · next hl =>
    split at hg
    · cases hg
    · next ho =>
      cases hg
      exact ⟨hl, rfl, by simpa using ho⟩
  · cases hg

theorem Balanced.derive {parent : HandleKey} {child : Nat} (hb : Balanced t none)
    (h : t.derive parent owner child methods = .ok (t', key)) :
    Balanced t' none ∧ t.Live parent ∧ (t.handleAt parent.slot).owner = owner ∧
      methods &&& ~~~(t.handleAt parent.slot).methods = 0 ∧
      Issued t t' child (t.handleAt parent.slot).resource methods (some parent) key := by
  unfold HandleTable.derive at h
  split at h
  · cases h
  · next hd hg =>
    obtain ⟨hl, rfl, ho⟩ := get_ok hb hg
    split at h
    · cases h
    · next hm =>
      have hi := issued_of_installWithParent h
      refine ⟨hb.issue hi ?_, hl, ho, by simpa using hm, hi⟩
      rintro p ⟨⟩
      exact hl.2

end HandleTable
end Xolotl.Core
