import Xolotl.Core.AuthorityReclaim
import Xolotl.Kernel.HandleIndex

/-! The reclaim loop of the kernel's handle table, and what releasing or revoking
one handle does: it takes one payload, and beyond that only vacates released
ancestors. -/

namespace Xolotl.Kernel

open DenseIndex Finset
open Xolotl.Core (HandleSlot HandleKey HandleSlotChange AuthorityError SlotState)
open Xolotl.Core.HandleTable (detachChild_cases release_slot_cases vacated)

variable {P : Type}

namespace Slots

variable {t : Slots P} {i : Nat}

def occupied (t : Slots P) : Nat :=
  {k ∈ Finset.range t.slots.length | t.state k ≠ .vacant}.card

theorem occupied_lt {t' : Slots P} (hl : t'.slots.length = t.slots.length)
    (hi : t.state i ≠ .vacant) (hi' : t'.state i = .vacant)
    (ho : ∀ k, k ≠ i → t'.state k ≠ .vacant → t.state k ≠ .vacant) :
    t'.occupied < t.occupied := by
  refine card_lt_card (ssubset_iff_of_subset ?_ |>.mpr ⟨i, ?_, ?_⟩)
  · intro k hk
    rw [mem_filter, hl] at hk
    refine mem_filter.mpr ⟨hk.1, ?_⟩
    by_cases hki : k = i
    · rw [hki] at hk
      exact absurd hi' hk.2
    · exact ho k hki hk.2
  · exact mem_filter.mpr ⟨mem_range.mpr (lt_length_of_state hi), hi⟩
  · exact fun h => (mem_filter.mp h).2 hi'

theorem occupied_le (t : Slots P) : t.occupied ≤ t.slots.length :=
  (card_filter_le _ _).trans (card_range _).le

end Slots

namespace HandleWrite

open Slots

/-! ## The reclaim loop -/

structure Yields (a a' : HandleSlot) : Prop where
  generation : a'.generation = a.generation
  state : a.state ≠ .released → a'.state = a.state
  released : a.state = .released → a'.state = .released ∨ a'.state = .vacant
  parent : a.state = .active → a'.parent = a.parent

theorem Yields.refl (a : HandleSlot) : Yields a a := ⟨rfl, fun _ => rfl, .inl, fun _ => rfl⟩

variable {a : HandleSlot} {w : HandleWrite P} {i : Nat} {t : Slots P}

theorem Yields.trans {b c : HandleSlot} (h : Yields a b) (h' : Yields b c) : Yields a c := by
  refine ⟨h'.generation.trans h.generation, fun ha => ?_, fun ha => ?_, fun ha => ?_⟩
  · have hb := h.state ha
    rw [h'.state (by rw [hb]; exact ha), hb]
  · rcases h.released ha with hb | hb
    · exact h'.released hb
    · exact .inr ((h'.state (by rw [hb]; exact nofun)).trans hb)
  · have hb : b.state = .active := (h.state (by rw [ha]; exact nofun)).trans ha
    exact (h'.parent hb).trans (h.parent ha)

theorem yields_detachChild (a : HandleSlot) (g : Nat) : Yields a (a.detachChild g).2 := by
  rcases detachChild_cases a g with ⟨-, h⟩ | ⟨-, -, -, h⟩ | ⟨-, -, hs, h⟩
  · rw [h]
    exact .refl a
  · rw [h]
    exact ⟨rfl, fun _ => rfl, .inl, fun _ => rfl⟩
  · rw [h]
    refine ⟨rfl, fun hne => absurd hs hne, fun _ => .inr rfl, fun ha => ?_⟩
    rw [hs] at ha
    cases ha

/-- Of slot `k` the authority may have been given up and the index position gone down. -/
abbrev Yielded (w w' : HandleWrite P) (k : Nat) : Prop :=
  ∃ authority, ∃ p ≤ (w.table.slotAt k).ownerPosition,
    w'.table.slotAt k = { w.table.slotAt k with authority, ownerPosition := p } ∧
    Yields (w.table.slotAt k).authority authority

/-- What the reclaim loop leaves of a table: owners and payloads stay, indices move
down, and no payload is dropped. -/
structure Reclaims (w w' : HandleWrite P) : Prop where
  length : w'.table.slots.length = w.table.slots.length
  slotLimit : w'.table.slotLimit = w.table.slotLimit
  retired : w'.retired = w.retired
  slot : ∀ k, Yielded w w' k

theorem Reclaims.refl (w : HandleWrite P) : Reclaims w w :=
  ⟨rfl, rfl, rfl, fun _ => ⟨_, _, le_refl _, rfl, .refl _⟩⟩

theorem Reclaims.trans {w₁ w₂ w₃ : HandleWrite P} (h : Reclaims w₁ w₂) (h' : Reclaims w₂ w₃) :
    Reclaims w₁ w₃ := by
  refine ⟨h'.length.trans h.length, h'.slotLimit.trans h.slotLimit, h'.retired.trans h.retired,
    fun k => ?_⟩
  obtain ⟨a, p, hp, hs, hy⟩ := h.slot k
  obtain ⟨a', p', hp', hs', hy'⟩ := h'.slot k
  rw [hs] at hp' hy' hs'
  exact ⟨a', p', hp'.trans hp, hs', hy.trans hy'⟩

theorem Reclaims.of_moved {table : Slots P} (h : Moved w.table table) :
    Reclaims w { w with table } := by
  refine ⟨h.length, h.slotLimit, rfl, fun k => ?_⟩
  obtain ⟨p, hp, hs⟩ := h.slot k
  exact ⟨_, p, hp, hs, .refl _⟩

theorem Reclaims.of_authority
    (hi : i < w.table.slots.length) (h : Yields (w.table.slotAt i).authority a) :
    Reclaims w { w with table := w.table.setAuthority i a } := by
  refine ⟨length_setSlot _ _ _, rfl, rfl, fun k => ?_⟩
  have hat := slotAt_setSlot hi { w.table.slotAt i with authority := a } k
  by_cases hk : k = i
  · subst hk
    rw [if_pos rfl] at hat
    exact ⟨a, _, le_refl _, hat, h⟩
  · rw [if_neg hk] at hat
    exact ⟨_, _, le_refl _, hat, .refl _⟩

def pendingOf (index : Nat) : HandleSlotChange → Option Nat
  | .reclaimed _ => some index
  | _ => none

theorem retire_self (hi : i < w.table.slots.length)
    (h : (w.table.slotAt i).handle = none) : w.retire i (w.table.slotAt i).authority = w := by
  have hs : { w.table.slotAt i with
      authority := (w.table.slotAt i).authority, handle := none } = w.table.slotAt i := by
    rw [← h]
  rw [retire, hs, setSlot_self hi, h, Option.toList_none, List.append_nil]

theorem Exact.handle_none {pending : Option Nat} (h : Exact t pending)
    (hi : t.state i ≠ .active) : (t.slotAt i).handle = none := by
  rw [← Option.not_isSome_iff_eq_none]
  exact fun hs => hi ((h.payload i).mp hs)

theorem setAuthority_self (t : Slots P) (i : Nat) :
    t.setAuthority i (t.slotAt i).authority = t := by
  by_cases hi : i < t.slots.length
  · exact setSlot_self hi
  · rw [setAuthority, setSlot, List.set_eq_of_length_le (not_lt.mp hi)]

theorem Exact.detach (h : Exact t none) (i g : Nat) :
    Exact (t.setAuthority i ((t.slotAt i).authority.detachChild g).2)
      (pendingOf i ((t.slotAt i).authority.detachChild g).1) := by
  rcases detachChild_cases (t.slotAt i).authority g with
    ⟨-, hd⟩ | ⟨hr, -, -, hd⟩ | ⟨-, -, hs, hd⟩
  · rw [hd, setAuthority_self]
    exact h
  · have hi : t.state i ≠ .vacant := (Xolotl.Core.HandleTable.retains_iff.mp hr).1
    rw [hd]
    exact h.change hi rfl rfl (h.payload i) (if_neg hi).symm
  · have hi : t.state i = .released := hs
    have hn := Exact.handle_none h (i := i) (by rw [hi]; exact nofun)
    rw [hd]
    exact h.change (by rw [hi]; exact nofun) rfl rfl (by simp [hn]) rfl

theorem occupied_detach {g : Nat} {next : Option HandleKey} (hi : i < t.slots.length)
    (h : (t.slotAt i).authority.detachChild g = (.reclaimed next, a)) :
    (t.setAuthority i a).occupied < t.occupied := by
  rcases detachChild_cases (t.slotAt i).authority g with
    ⟨-, hd⟩ | ⟨-, -, -, hd⟩ | ⟨-, -, hs, hd⟩
  · rw [hd] at h
    cases h
  · rw [hd] at h
    cases h
  · rw [hd] at h
    cases h
    have hst := state_setSlot hi { t.slotAt i with authority :=
      { (t.slotAt i).authority with state := .vacant, children := 0, parent := none } }
    have hr : t.state i = .released := hs
    refine occupied_lt (i := i) (length_setSlot _ _ _) (by rw [hr]; exact nofun) ?_ ?_
    · exact (hst i).trans (if_pos rfl)
    · intro k hk
      rw [show (t.setAuthority i _).state k = t.state k from (hst k).trans (if_neg hk)]
      exact id

theorem exact_reclaimAncestors {fuel index : Nat} {change : HandleSlotChange}
    (h : Exact w.table (pendingOf index change))
    (hf : ∀ parent, change = .reclaimed parent → w.table.occupied + 1 ≤ fuel) :
    Exact (reclaimAncestors fuel index change w).table none ∧
      Reclaims w (reclaimAncestors fuel index change w) := by
  induction fuel generalizing index change w with
  | zero =>
    cases change with
    | reclaimed parent => exact absurd (hf parent rfl) (by omega)
    | unchanged | retained => exact ⟨h, .refl w⟩
  | succ fuel ih =>
    cases change with
    | unchanged | retained => exact ⟨h, .refl w⟩
    | reclaimed parent =>
      obtain ⟨hle, hv⟩ := h.pending_vacant index rfl
      have hn := Exact.handle_none h (i := index) (by rw [hv]; exact nofun)
      obtain ⟨he, hm⟩ := h.vacate
      have hr := Reclaims.of_moved hm
      simp only [reclaimAncestors, retire_self hle hn]
      cases parent with
      | none => exact ⟨he, hr⟩
      | some parent =>
        dsimp only
        cases hs : (w.table.vacate index).slots[parent.slot]? with
        | none => exact ⟨he, hr⟩
        | some slot =>
          have hlt := (List.getElem?_eq_some_iff.mp hs).1
          obtain rfl : (w.table.vacate index).slotAt parent.slot = slot := by
            rw [slotAt, hs]
            rfl
          have hy := yields_detachChild
            ((w.table.vacate index).slotAt parent.slot).authority parent.generation
          have hde := Exact.detach he parent.slot parent.generation
          have hst := Reclaims.of_authority (w := { w with table := w.table.vacate index })
            hlt hy
          dsimp only
          have ho : (w.table.vacate index).occupied = w.table.occupied := by
            have hsa : ∀ k, (w.table.vacate index).state k = w.table.state k := by
              intro k
              obtain ⟨p, -, hk⟩ := hm.slot k
              rw [state, hk]
              rfl
            simp only [occupied, hm.length, hsa]
          generalize hc : ((w.table.vacate index).slotAt parent.slot).authority.detachChild
            parent.generation = r at hde hst
          obtain ⟨change, a⟩ := r
          have hbound : ∀ next, change = .reclaimed next →
              ((w.table.vacate index).setAuthority parent.slot a).occupied + 1 ≤ fuel := by
            rintro next rfl
            have hl := occupied_detach hlt hc
            have hen := hf _ rfl
            omega
          obtain ⟨hd, hre⟩ :=
            ih (w := ⟨(w.table.vacate index).setAuthority parent.slot a, w.retired⟩) hde hbound
          exact ⟨hd, hr.trans (hst.trans hre)⟩

/-! ## One handle -/

/-- What taking the authority of one slot does to a table: the slot is no longer
active, its payload is retired, and beyond that only released ancestors go. -/
structure Takes (w w' : HandleWrite P) (i : Nat) : Prop where
  exact : Exact w'.table none
  length : w'.table.slots.length = w.table.slots.length
  slotLimit : w'.table.slotLimit = w.table.slotLimit
  retired : w'.retired = w.retired ++ (w.table.slotAt i).handle.toList
  taken : w'.table.state i ≠ .active
  other : ∀ k, k ≠ i → Yielded w w' k

theorem takes_conclude (change : HandleSlotChange) (a : HandleSlot)
    (h : Exact w.table none) (hi : w.table.state i ≠ .vacant) (hne : change ≠ .unchanged)
    (ha : a.state ≠ .active)
    (hp : pendingOf i change = if a.state = .vacant then some i else none) :
    (w.conclude i (change, a)).1 = true ∧ Takes w (w.conclude i (change, a)).2 i ∧
      (a.state = .vacant → (w.conclude i (change, a)).2.table.state i = .vacant) := by
  have hlt := lt_length_of_state hi
  have he : Exact (w.retire i a).table (pendingOf i change) :=
    h.change hi rfl rfl (iff_of_false (by simp) ha) hp
  have hat := slotAt_setSlot hlt { w.table.slotAt i with authority := a, handle := none }
  have hc : w.conclude i (change, a) =
      (true, reclaimAncestors w.table.slots.length i change (w.retire i a)) := by
    cases change with
    | unchanged => exact absurd rfl hne
    | retained | reclaimed => rfl
  have hf : ∀ parent, change = .reclaimed parent →
      (w.retire i a).table.occupied + 1 ≤ w.table.slots.length := by
    rintro parent rfl
    have hv : a.state = .vacant := by
      by_contra hs
      rw [if_neg hs] at hp
      cases hp
    have hst := state_setSlot hlt { w.table.slotAt i with authority := a, handle := none }
    have hl : (w.retire i a).table.occupied < w.table.occupied := by
      refine occupied_lt (i := i) (length_setSlot _ _ _) hi ?_ fun k hk => ?_
      · exact ((hst i).trans (if_pos rfl)).trans hv
      · rw [show (w.retire i a).table.state k = w.table.state k from (hst k).trans (if_neg hk)]
        exact id
    have hle := w.table.occupied_le
    omega
  obtain ⟨hd, hr⟩ := exact_reclaimAncestors he hf
  rw [hc]
  obtain ⟨a', p, -, hsl, hyi⟩ := hr.slot i
  have hse : (w.retire i a).table.slotAt i =
      { w.table.slotAt i with authority := a, handle := none } := (hat i).trans (if_pos rfl)
  rw [hse] at hsl hyi
  refine ⟨rfl, ⟨hd, hr.length.trans (length_setSlot _ _ _), hr.slotLimit,
    hr.retired, ?_, fun k hk => ?_⟩, fun hv => ?_⟩
  · rw [state, hsl]
    intro hac
    by_cases hs : a.state = .released
    · rcases hyi.released hs with h' | h' <;> rw [hac] at h' <;> cases h'
    · exact ha ((hyi.state hs).symm.trans hac)
  · have ho : (w.retire i a).table.slotAt k = w.table.slotAt k := (hat k).trans (if_neg hk)
    obtain ⟨b, q, hq, hb, hy⟩ := hr.slot k
    rw [ho] at hq hb hy
    exact ⟨b, q, hq, hb, hy⟩
  · rw [state, hsl]
    exact (hyi.state (by rw [hv]; decide)).trans hv

theorem release_spec (h : Exact w.table none) (id : HandleId) :
    ((w.table.slotAt id.index).authority.isMatch id.generation = true ∧ (w.release id).1 = true ∧
      Takes w (w.release id).2 id.index) ∨
    ((w.table.slotAt id.index).authority.isMatch id.generation = false ∧
      w.release id = (false, w)) := by
  by_cases hlt : id.index < w.table.slots.length
  · have hre : w.release id = w.conclude id.index
        ((w.table.slotAt id.index).authority.release id.generation) := by
      rw [release, getElem?_slots hlt]
    rw [hre]
    rcases release_slot_cases (w.table.slotAt id.index).authority id.generation with
      ⟨hm, hr⟩ | ⟨hm, -, hr⟩ | ⟨hm, -, hr⟩
    · rw [hr]
      exact .inr ⟨hm, rfl⟩
    · have ha : w.table.state id.index = .active := by
        simp only [HandleSlot.isMatch, Bool.and_eq_true, beq_iff_eq] at hm
        exact hm.1
      rw [hr]
      obtain ⟨htr, ht, -⟩ := takes_conclude (.reclaimed _)
        (vacated (w.table.slotAt id.index).authority) h (by rw [ha]; decide)
        (by rintro ⟨⟩) (by rintro ⟨⟩) rfl
      exact .inl ⟨hm, htr, ht⟩
    · have ha : w.table.state id.index = .active := by
        simp only [HandleSlot.isMatch, Bool.and_eq_true, beq_iff_eq] at hm
        exact hm.1
      rw [hr]
      obtain ⟨htr, ht, -⟩ := takes_conclude .retained
        { (w.table.slotAt id.index).authority with state := .released } h
        (by rw [ha]; decide) (by rintro ⟨⟩) (by rintro ⟨⟩) rfl
      exact .inl ⟨hm, htr, ht⟩
  · refine .inr ⟨?_, ?_⟩
    · rw [slotAt_of_le (not_lt.mp hlt)]
      rfl
    · rw [release, List.getElem?_eq_none (not_lt.mp hlt)]

theorem revoke_spec (h : Exact w.table none) (id : HandleId) :
    ((w.table.slotAt id.index).authority.retains id.generation = true ∧ (w.revoke id).1 = true ∧
      Takes w (w.revoke id).2 id.index ∧ (w.revoke id).2.table.state id.index = .vacant) ∨
    ((w.table.slotAt id.index).authority.retains id.generation = false ∧
      w.revoke id = (false, w)) := by
  by_cases hlt : id.index < w.table.slots.length
  · have hre : w.revoke id = w.conclude id.index
        ((w.table.slotAt id.index).authority.revoke id.generation) := by
      rw [revoke, getElem?_slots hlt]
    rw [hre]
    by_cases hr : (w.table.slotAt id.index).authority.retains id.generation = true
    · have hi : w.table.state id.index ≠ .vacant := (Xolotl.Core.HandleTable.retains_iff.mp hr).1
      have hv : (w.table.slotAt id.index).authority.revoke id.generation =
          (.reclaimed (w.table.slotAt id.index).authority.parent,
            { (w.table.slotAt id.index).authority with
              state := .vacant, children := 0, parent := none }) := by
        simp [HandleSlot.revoke, HandleSlot.reclaim, hr]
      rw [hv]
      obtain ⟨htr, ht, hva⟩ := takes_conclude
        (.reclaimed (w.table.slotAt id.index).authority.parent)
        { (w.table.slotAt id.index).authority with
          state := .vacant, children := 0, parent := none } h hi (by rintro ⟨⟩) (by rintro ⟨⟩) rfl
      exact .inl ⟨hr, htr, ht, hva rfl⟩
    · rw [Bool.not_eq_true] at hr
      refine .inr ⟨hr, ?_⟩
      rw [HandleSlot.revoke, hr]
      rfl
  · refine .inr ⟨?_, ?_⟩
    · rw [slotAt_of_le (not_lt.mp hlt)]
      rfl
    · rw [revoke, List.getElem?_eq_none (not_lt.mp hlt)]

end HandleWrite
end Xolotl.Kernel
