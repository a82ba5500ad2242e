import Xolotl.Core.Authority
import Xolotl.Lib.Walk

/-! The ownership balance of a handle table: every retained slot counts exactly
the slots that name it as their parent, released slots are kept only by
children, and parent links never lead back. While a reclaim loop runs, one
reference is still to be dropped; the balance carries it as `pending`. -/

namespace Xolotl.Core

open Finset HandleSlot
namespace HandleTable

variable (t : HandleTable)

def handleAt (i : Nat) : Handle := (t.slots[i]?).getD {}

def slotAt (i : Nat) : HandleSlot := (t.handleAt i).slot

def up (i : Nat) : Option Nat := (t.slotAt i).parent.map HandleKey.slot

def childrenOf (key : HandleKey) : Finset Nat :=
  {j ∈ Finset.range t.slots.length | (t.slotAt j).parent = some key}

def occupied : Nat :=
  {j ∈ Finset.range t.slots.length | (t.slotAt j).state ≠ .vacant}.card

variable {t : HandleTable} {i g : Nat} {key p : HandleKey} {pending : Option HandleKey}
  {s : HandleSlot}

theorem handleAt_of_getElem? {h : Handle} (hi : t.slots[i]? = some h) : t.handleAt i = h := by
  simp [handleAt, hi]

theorem slotAt_of_le (hi : t.slots.length ≤ i) : t.slotAt i = {} := by
  simp [slotAt, handleAt, hi]

theorem getElem?_eq_handleAt (hi : i < t.slots.length) : t.slots[i]? = some (t.handleAt i) := by
  simp [handleAt, hi]

theorem lt_length_of_not_vacant (h : (t.slotAt i).state ≠ .vacant) : i < t.slots.length := by
  by_contra hi
  exact h (by rw [slotAt_of_le (not_lt.mp hi)])

@[simp] theorem length_modifySlot (t : HandleTable) (i : Nat) (s : HandleSlot) :
    (t.modifySlot i s).slots.length = t.slots.length := by
  simp [modifySlot]

theorem handleAt_modifySlot (hi : i < t.slots.length) (s : HandleSlot)
    (j : Nat) : (t.modifySlot i s).handleAt j =
      if j = i then { t.handleAt i with slot := s } else t.handleAt j := by
  by_cases hj : j = i
  · subst hj
    simp [handleAt, modifySlot, List.getElem?_eq_getElem hi]
  · simp [handleAt, modifySlot, Ne.symm hj, hj]

theorem slotAt_modifySlot (hi : i < t.slots.length) (s : HandleSlot)
    (j : Nat) : (t.modifySlot i s).slotAt j = if j = i then s else t.slotAt j := by
  rw [slotAt, handleAt_modifySlot hi]
  split <;> rfl

theorem keeps_modifySlot {α : Type} (hi : i < t.slots.length) (f : HandleSlot → α)
    (hf : f s = f (t.slotAt i)) (j : Nat) : f ((t.modifySlot i s).slotAt j) = f (t.slotAt j) := by
  rw [slotAt_modifySlot hi]
  split
  · next hj => rw [hj, hf]
  · rfl

theorem slotAt_vacant (n i : Nat) : (vacant n).slotAt i = {} := by
  by_cases hi : i < n <;> simp [slotAt, handleAt, vacant, hi]

theorem mem_childrenOf {j : Nat} :
    j ∈ t.childrenOf key ↔ j < t.slots.length ∧ (t.slotAt j).parent = some key := by
  simp [childrenOf]

/-! ## The balance -/

structure Balanced (t : HandleTable) (pending : Option HandleKey) : Prop where
  vacant_clean : ∀ i, (t.slotAt i).state = .vacant →
    (t.slotAt i).parent = none ∧ (t.slotAt i).children = 0
  released_held : ∀ i, (t.slotAt i).state = .released → 0 < (t.slotAt i).children
  counted : ∀ i, (t.slotAt i).state ≠ .vacant → (t.slotAt i).children =
    (t.childrenOf ⟨i, (t.slotAt i).generation⟩).card +
      (if pending = some ⟨i, (t.slotAt i).generation⟩ then 1 else 0)
  parent_old : ∀ i p, (t.slotAt i).parent = some p → p.generation ≤ (t.slotAt p.slot).generation ∧
    p.slot < t.slots.length
  ends : ∀ i, Walk.Ends t.up i

def Tidy (s : HandleSlot) : Prop :=
  (s.state = .vacant → s.parent = none ∧ s.children = 0) ∧ (s.state = .released → 0 < s.children)

theorem Balanced.tidy (h : Balanced t pending) (i : Nat) : Tidy (t.slotAt i) :=
  ⟨h.vacant_clean i, h.released_held i⟩

theorem balanced_vacant (n : Nat) : Balanced (vacant n) none := by
  have hs : ∀ i, (vacant n).slotAt i = {} := slotAt_vacant n
  have hup : ∀ i, (vacant n).up i = none := by intro i; simp [up, hs]
  refine ⟨fun i _ => by simp [hs], ?_, ?_, ?_, fun i => Walk.ends_of_none (hup i)⟩
  · intro i hi
    rw [hs] at hi
    cases hi
  · intro i hi
    exact absurd (by rw [hs]) hi
  · intro i p hp
    rw [hs] at hp
    cases hp

theorem Balanced.drop_pending (h : Balanced t (some p))
    (hp : (t.slotAt p.slot).retains p.generation = false) : Balanced t none := by
  refine ⟨h.vacant_clean, h.released_held, ?_, h.parent_old, h.ends⟩
  intro i hi
  have hne : ¬ some p = some ⟨i, (t.slotAt i).generation⟩ := by
    rintro ⟨⟩
    simp [HandleSlot.retains, hi] at hp
  rw [h.counted i hi, if_neg hne]
  simp

theorem Balanced.vacate (h : Balanced t pending) (hi : (t.slotAt i).state ≠ .vacant)
    (hpe : pending = none ∨ ∃ g, pending = some ⟨i, g⟩)
    (hs : s.generation = (t.slotAt i).generation ∧ s.state = .vacant ∧ s.parent = none ∧
      s.children = 0) :
    Balanced (t.modifySlot i s) (t.slotAt i).parent := by
  have hl := lt_length_of_not_vacant hi
  obtain ⟨hg, hst, hpa, hch⟩ := hs
  have hat : ∀ j, (t.modifySlot i s).slotAt j = if j = i then s else t.slotAt j :=
    slotAt_modifySlot hl s
  have hg' := keeps_modifySlot hl generation hg
  have ht : ∀ j, Tidy ((t.modifySlot i s).slotAt j) := by
    intro j
    rw [hat]
    split
    · exact ⟨fun _ => ⟨hpa, hch⟩, by rw [hst]; nofun⟩
    · exact h.tidy j
  have hc : ∀ key, (t.modifySlot i s).childrenOf key = (t.childrenOf key).erase i := by
    intro key
    ext j
    rw [mem_erase, mem_childrenOf, mem_childrenOf, hat]
    by_cases hj : j = i
    · simp [hj, hpa]
    · simp [hj]
  refine ⟨fun j => (ht j).1, fun j => (ht j).2, ?_, ?_, ?_⟩
  · intro j hj
    rw [hc]
    by_cases hji : j = i
    · rw [hat, if_pos hji] at hj
      exact absurd hst hj
    · rw [hat, if_neg hji] at hj ⊢
      have hn : ¬ pending = some ⟨j, (t.slotAt j).generation⟩ := by
        rcases hpe with rfl | ⟨g, rfl⟩
        · simp
        · rintro ⟨⟩
          exact hji rfl
      rw [h.counted j hj, if_neg hn]
      by_cases hpr : (t.slotAt i).parent = some ⟨j, (t.slotAt j).generation⟩
      · have hme : i ∈ t.childrenOf ⟨j, (t.slotAt j).generation⟩ := mem_childrenOf.mpr ⟨hl, hpr⟩
        have hpos := card_pos.mpr ⟨i, hme⟩
        rw [if_pos hpr, card_erase_of_mem hme]
        omega
      · have hme : i ∉ t.childrenOf ⟨j, (t.slotAt j).generation⟩ :=
          fun hm => hpr (mem_childrenOf.mp hm).2
        rw [if_neg hpr, erase_eq_of_notMem hme]
  · intro j p hp
    rw [length_modifySlot, hg']
    rw [hat] at hp
    split at hp
    · rw [hpa] at hp
      cases hp
    · exact h.parent_old j p hp
  · intro j
    refine (h.ends j).of_sub ?_
    intro k
    by_cases hk : k = i
    · exact .inr (by simp [up, hat, hk, hpa])
    · exact .inl (by simp [up, hat, hk])

theorem Balanced.adjust {pending' : Option HandleKey} (h : Balanced t pending)
    (hi : (t.slotAt i).state ≠ .vacant)
    (hs : s.generation = (t.slotAt i).generation ∧ s.state ≠ .vacant ∧
      s.parent = (t.slotAt i).parent) (hh : s.state = .released → 0 < s.children)
    (hcn : s.children = (t.childrenOf ⟨i, (t.slotAt i).generation⟩).card +
      (if pending' = some ⟨i, (t.slotAt i).generation⟩ then 1 else 0))
    (hpe : ∀ j, j ≠ i → (pending' = some ⟨j, (t.slotAt j).generation⟩ ↔
      pending = some ⟨j, (t.slotAt j).generation⟩)) :
    Balanced (t.modifySlot i s) pending' := by
  have hl := lt_length_of_not_vacant hi
  obtain ⟨hg, hst, hpa⟩ := hs
  have hat : ∀ j, (t.modifySlot i s).slotAt j = if j = i then s else t.slotAt j :=
    slotAt_modifySlot hl s
  have hg' := keeps_modifySlot hl generation hg
  have hpa' := keeps_modifySlot hl parent hpa
  have ht : ∀ j, Tidy ((t.modifySlot i s).slotAt j) := by
    intro j
    rw [hat]
    split
    · exact ⟨fun hs => absurd hs hst, hh⟩
    · exact h.tidy j
  have hc : ∀ key, (t.modifySlot i s).childrenOf key = t.childrenOf key := by
    intro key
    ext j
    rw [mem_childrenOf, mem_childrenOf, length_modifySlot, hpa']
  have hup : (t.modifySlot i s).up = t.up := by
    funext j
    rw [up, up, hpa']
  refine ⟨fun j => (ht j).1, fun j => (ht j).2, ?_, ?_, ?_⟩
  · intro j hj
    rw [hc, hg']
    by_cases hji : j = i
    · rw [hat, if_pos hji, hji, hcn]
    · rw [hat, if_neg hji] at hj ⊢
      rw [h.counted j hj]
      simp only [hpe j hji]
  · intro j p hp
    rw [hpa'] at hp
    rw [hg', length_modifySlot]
    exact h.parent_old j p hp
  · intro j
    rw [hup]
    exact h.ends j

/-! ## Anchors -/

/-- A key whose own slot and all of whose ancestors are retained. -/
inductive Anchored (t : HandleTable) : HandleKey → Prop
  | root {key : HandleKey} (hkey : (t.slotAt key.slot).retains key.generation = true)
      (hparent : (t.slotAt key.slot).parent = none) : Anchored t key
  | child {key p : HandleKey} (hkey : (t.slotAt key.slot).retains key.generation = true)
      (hparent : (t.slotAt key.slot).parent = some p) (hp : Anchored t p) : Anchored t key

/-- A key that is active itself and whose ancestors are all retained. -/
def Live (t : HandleTable) (key : HandleKey) : Prop :=
  (t.slotAt key.slot).isMatch key.generation = true ∧ t.Anchored key

theorem retains_iff : s.retains g = true ↔ s.state ≠ .vacant ∧ s.generation = g := by
  simp [HandleSlot.retains]

theorem isMatch_iff : s.isMatch g = true ↔ s.state = .active ∧ s.generation = g := by
  simp [isMatch]

theorem retains_of_isMatch (h : s.isMatch g = true) : s.retains g = true := by
  obtain ⟨hs, hg⟩ := isMatch_iff.mp h
  exact retains_iff.mpr ⟨by simp [hs], hg⟩

theorem Anchored.retains (h : t.Anchored key) :
    (t.slotAt key.slot).retains key.generation = true := by
  cases h with
  | root hk _ | child hk _ _ => exact hk

theorem Anchored.parent (h : t.Anchored key)
    (hp : (t.slotAt key.slot).parent = some p) : t.Anchored p := by
  cases h with
  | root _ hpa => rw [hpa] at hp; cases hp
  | child _ hpa h =>
    rw [hpa] at hp
    cases hp
    exact h

theorem Anchored.not_vacant (h : t.Anchored key) {x : Nat}
    (hx : Walk.Visits t.up key.slot x) : (t.slotAt x).state ≠ .vacant := by
  induction h with
  | root hk hp =>
    rcases Walk.visits_iff.mp hx with rfl | ⟨b, hb, -⟩
    · exact (retains_iff.mp hk).1
    · simp [up, hp] at hb
  | child hk hp _ ih =>
    rcases Walk.visits_iff.mp hx with rfl | ⟨b, hb, hv⟩
    · exact (retains_iff.mp hk).1
    · simp only [up, hp, Option.map_some, Option.some.injEq] at hb
      rw [← hb] at hv
      exact ih hv

theorem lookup_eq (t : HandleTable) (key : HandleKey) (h : key.slot < t.slots.length) :
    t.lookup key = some (t.slotAt key.slot) := by
  simp [lookup, getElem?_eq_handleAt h, slotAt]

theorem lookup_eq_some (h : t.lookup key = some s) : s = t.slotAt key.slot := by
  simp only [lookup, Option.map_eq_some_iff] at h
  obtain ⟨h', hh, rfl⟩ := h
  rw [slotAt, handleAt_of_getElem? hh]

theorem anchored_of_validateAncestors {n : Nat}
    (h : validateAncestors t.lookup n (some p) = .ok ()) : t.Anchored p := by
  induction n generalizing p with
  | zero => cases h
  | succ n ih =>
    simp only [validateAncestors] at h
    split at h
    · cases h
    · next ancestor hl =>
      obtain rfl := lookup_eq_some hl
      split at h
      · cases h
      · next hr =>
        have hr' : (t.slotAt p.slot).retains p.generation = true := by simpa using hr
        rcases hp : (t.slotAt p.slot).parent with _ | q
        · exact .root hr' hp
        · rw [hp] at h
          exact .child hr' hp (ih h)

theorem validateAncestors_of_anchored {n : Nat}
    (h : t.Anchored p) (hn : Walk.walk t.up p.slot n = none) :
    validateAncestors t.lookup n (some p) = .ok () := by
  induction n generalizing p with
  | zero => simp at hn
  | succ n ih =>
    have hr := h.retains
    have hl := lt_length_of_not_vacant (retains_iff.mp hr).1
    simp only [validateAncestors, lookup_eq t p hl, hr]
    rcases hp : (t.slotAt p.slot).parent with _ | q
    · cases n <;> rfl
    · refine ih (h.parent hp) ?_
      rw [Walk.walk_succ_eq, up, hp] at hn
      exact hn

theorem Balanced.validateAncestors_iff (h : Balanced t pending) (p : HandleKey) :
    validateAncestors t.lookup t.slots.length (some p) = .ok () ↔ t.Anchored p := by
  refine ⟨anchored_of_validateAncestors, fun ha => validateAncestors_of_anchored ha ?_⟩
  by_contra hn
  have hlt := Walk.walk_length_lt (s := Finset.range t.slots.length) (h.ends p.slot)
    (fun x hx => mem_range.mpr (lt_length_of_not_vacant (ha.not_vacant hx))) hn
  rw [card_range] at hlt
  exact Nat.lt_irrefl _ hlt

theorem validateAncestors_result (lookup : HandleKey → Option HandleSlot) (n : Nat)
    (p : Option HandleKey) : validateAncestors lookup n p = .ok () ∨
      validateAncestors lookup n p = .error .stale := by
  induction n generalizing p with
  | zero => cases p <;> simp [validateAncestors]
  | succ n ih =>
    cases p with
    | none => exact .inl rfl
    | some key =>
      simp only [validateAncestors]
      split
      · exact .inr rfl
      · split
        · exact .inr rfl
        · exact ih _

theorem anchored_iff_of_parent (hk : (t.slotAt key.slot).retains key.generation = true) :
    t.Anchored key ↔ ∀ p, (t.slotAt key.slot).parent = some p → t.Anchored p := by
  refine ⟨fun h p hp => h.parent hp, fun h => ?_⟩
  rcases hp : (t.slotAt key.slot).parent with _ | p
  · exact .root hk hp
  · exact .child hk hp (h p hp)

theorem Balanced.get_eq (h : Balanced t pending)
    (key : HandleKey) (owner : Nat) [Decidable (t.Live key)] :
    t.get key owner = if t.Live key then
      (if (t.handleAt key.slot).owner ≠ owner then .error .owner else .ok (t.handleAt key.slot))
      else .error .stale := by
  by_cases hle : key.slot < t.slots.length
  · simp only [get, getElem?_eq_handleAt hle, HandleSlot.validate]
    rw [show (t.handleAt key.slot).slot = t.slotAt key.slot from rfl]
    by_cases hm : (t.slotAt key.slot).isMatch key.generation = true
    · have hi : validateAncestors t.lookup t.slots.length
          (t.slotAt key.slot).parent = .ok () ↔ t.Live key := by
        rw [Live, anchored_iff_of_parent (retains_of_isMatch hm)]
        rcases hp : (t.slotAt key.slot).parent with _ | p
        · simp [validateAncestors, hm]
        · simp [h.validateAncestors_iff, hm]
      by_cases hl : t.Live key
      · simp [hm, hi.mpr hl, hl]
      · have he := (validateAncestors_result t.lookup t.slots.length
          (t.slotAt key.slot).parent).resolve_left fun hv => hl (hi.mp hv)
        simp [he, hl]
    · have hl : ¬ t.Live key := fun hl => hm hl.1
      simp [hm, hl]
  · have hl : ¬ t.Live key := fun hl =>
      hle (lt_length_of_not_vacant (retains_iff.mp (retains_of_isMatch hl.1)).1)
    simp [get, hle, hl]

end HandleTable
end Xolotl.Core
