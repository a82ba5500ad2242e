import Xolotl.Kernel.Handle

/-! The owner index and the free list of the kernel's handle table are exact: the
index of an owner lists its retained slots, each at the position the slot records,
and the free list holds the slots that can be installed again. While a reclaim loop
runs, one slot is already vacant and still listed; the invariant carries it as
`pending`. -/

namespace Xolotl.Kernel

open DenseIndex List Function
open Xolotl.Core (HandleSlot HandleKey HandleSlotChange AuthorityError)

variable {P : Type}

/-! ## The index of one owner -/

namespace OwnerSlots

def Valid : OwnerSlots → Prop
  | .one _ => True
  | .many indices => 2 ≤ indices.length

theorem len_eq (s : OwnerSlots) : s.len = s.toList.length := by
  cases s <;> rfl

variable {s : OwnerSlots}

theorem toList_ne_nil (h : s.Valid) : s.toList ≠ [] := by
  cases s with
  | one index => exact cons_ne_nil _ _
  | many indices =>
    refine ne_nil_of_length_pos ?_
    have hl : 2 ≤ indices.length := h
    show 0 < indices.length
    omega

theorem atPosition_eq (s : OwnerSlots) (p : Nat) : s.atPosition p = s.toList[p]? := by
  cases s with
  | one index => cases p <;> rfl
  | many indices => rfl

theorem first_mem (h : s.Valid) : s.first ∈ s.toList := by
  cases s with
  | one index => exact mem_singleton_self index
  | many indices =>
    cases indices with
    | nil => exact absurd h (by simp [Valid])
    | cons index rest => exact mem_cons_self

theorem valid_push (h : s.Valid) (i : Nat) : (s.push i).Valid := by
  cases s with
  | one index => exact Nat.le_refl 2
  | many indices =>
    show 2 ≤ (indices ++ [i]).length
    rw [length_append]
    exact Nat.le_add_right_of_le h

def repositioned (pos : Nat → Nat) : Option (Nat × Nat) → Nat → Nat
  | none => pos
  | some (m, q) => Function.update pos m q

variable {pos : Nat → Nat} {moved : Option (Nat × Nat)}

theorem repositioned_of_ne {k : Nat} (h : ∀ q, moved ≠ some (k, q)) :
    repositioned pos moved k = pos k := by
  cases moved with
  | none => rfl
  | some moved => exact update_of_ne (fun heq => h moved.2 (by rw [heq])) ..

theorem repositioned_le (h : ∀ m q, moved = some (m, q) → q ≤ pos m) (k : Nat) :
    repositioned pos moved k ≤ pos k := by
  by_cases hk : ∃ q, moved = some (k, q)
  · obtain ⟨q, rfl⟩ := hk
    rw [repositioned, update_self]
    exact h k q rfl
  · rw [repositioned_of_ne (not_exists.mp hk)]

theorem remove_spec {p i : Nat} (hv : s.Valid) (h : Indexed s.toList pos)
    (hi : s.toList[p]? = some i) :
    (if (s.remove p).2.2 then [] else (s.remove p).1.toList) = swapRemove s.toList p ∧
      ((s.remove p).2.2 = false → (s.remove p).1.Valid) ∧
      (∀ m q, (s.remove p).2.1 = some (m, q) → m ∈ swapRemove s.toList p ∧ q ≤ pos m) ∧
      Indexed (swapRemove s.toList p) (repositioned pos (s.remove p).2.1) := by
  have hlt := (List.getElem?_eq_some_iff.mp hi).1
  cases s with
  | one index =>
    obtain rfl : p = 0 := Nat.lt_one_iff.mp hlt
    exact ⟨rfl, nofun, nofun, nofun⟩
  | many indices =>
    have hl : 2 ≤ indices.length := hv
    have hs := length_swapRemove (l := indices) hlt
    rcases hr : swapRemove indices p with _ | ⟨x, _ | ⟨y, zs⟩⟩
    · rw [hr, length_nil] at hs
      omega
    · have hre : (many indices).remove p = (.one x, some (x, 0), false) := by
        simp [remove, hr]
      rw [hre]
      show [x] = swapRemove indices p ∧ _ ∧ (∀ m q, _ → m ∈ swapRemove indices p ∧ _) ∧
        Indexed (swapRemove indices p) _
      rw [hr]
      refine ⟨rfl, fun _ => trivial, ?_, ?_⟩
      · rintro _ _ ⟨⟩
        exact ⟨mem_singleton_self x, Nat.zero_le _⟩
      · intro q b hb
        cases q with
        | zero =>
          obtain rfl : x = b := Option.some.inj hb
          exact update_self ..
        | succ q => cases hb
    · have hre : (many indices).remove p = (.many (swapRemove indices p),
          (swapRemove indices p)[p]?.map fun moved => (moved, p), false) := by
        simp [remove, hr]
      rw [hre]
      refine ⟨rfl, fun _ => ?_, fun m q hm => ?_,
        h.swapRemove hlt (fun b hb => ?_) fun b _ hne => ?_⟩
      · show 2 ≤ (swapRemove indices p).length
        rw [hr]
        simp
      · obtain ⟨m', hm', heq⟩ := Option.map_eq_some_iff.mp hm
        cases heq
        exact ⟨mem_of_getElem? hm', h.position_le hlt hm'⟩
      · simp only [toList] at hb
        simp only [hb]
        exact update_self ..
      · refine repositioned_of_ne fun q hq => ?_
        obtain ⟨m, hm, heq⟩ := Option.map_eq_some_iff.mp hq
        cases heq
        exact hne hm

end OwnerSlots

/-! ## The invariant of the table -/

namespace Slots

variable {t : Slots P} {i j : Nat} {pending : Option Nat}

def indices (t : Slots P) (owner : Nat) : List Nat :=
  ((t.byOwner owner).map OwnerSlots.toList).getD []

def state (t : Slots P) (i : Nat) : Xolotl.Core.SlotState := (t.slotAt i).authority.state

structure Exact (t : Slots P) (pending : Option Nat) : Prop where
  shape : ∀ o s, t.byOwner o = some s → s.Valid
  indexed : ∀ o, Indexed (t.indices o) fun i => (t.slotAt i).ownerPosition
  mem_iff : ∀ o i, i ∈ t.indices o ↔
    (t.slotAt i).owner = o ∧ (t.state i ≠ .vacant ∨ pending = some i)
  free_nodup : t.free.Nodup
  free_iff : ∀ i, i ∈ t.free ↔ i < t.slots.length ∧ (t.slotAt i).authority.reusable = true ∧
    pending ≠ some i
  payload : ∀ i, (t.slotAt i).handle.isSome = true ↔ t.state i = .active
  pending_vacant : ∀ i, pending = some i → i < t.slots.length ∧ t.state i = .vacant

theorem slotAt_of_le (hi : t.slots.length ≤ i) : t.slotAt i = {} := by
  rw [slotAt, List.getElem?_eq_none hi]
  rfl

theorem lt_length_of_state (h : t.state i ≠ .vacant) : i < t.slots.length := by
  by_contra hi
  rw [state, slotAt_of_le (not_lt.mp hi)] at h
  exact h rfl

theorem getElem?_slots (hi : i < t.slots.length) : t.slots[i]? = some (t.slotAt i) := by
  rw [slotAt, List.getElem?_eq_getElem hi]
  rfl

theorem slotAt_setSlot (hi : i < t.slots.length) (s : Slot P) (j : Nat) :
    (t.setSlot i s).slotAt j = if j = i then s else t.slotAt j := by
  by_cases hj : j = i
  · rw [if_pos hj, hj, slotAt, setSlot, List.getElem?_set_self hi]
    rfl
  · rw [if_neg hj, slotAt, setSlot, List.getElem?_set_ne (Ne.symm hj), slotAt]

@[simp] theorem length_setSlot (t : Slots P) (i : Nat) (s : Slot P) :
    (t.setSlot i s).slots.length = t.slots.length := by
  simp [setSlot]

theorem setSlot_self (hi : i < t.slots.length) : t.setSlot i (t.slotAt i) = t := by
  rw [setSlot, slotAt, List.getElem?_eq_getElem hi, Option.getD_some, set_getElem_self]

theorem state_setSlot (hi : i < t.slots.length) (s : Slot P) (j : Nat) :
    (t.setSlot i s).state j = if j = i then s.authority.state else t.state j := by
  rw [state, slotAt_setSlot hi]
  split <;> rfl

theorem Exact.change (h : Exact t none) (hi : t.state i ≠ .vacant) {s : Slot P}
    (ho : s.owner = (t.slotAt i).owner) (hpos : s.ownerPosition = (t.slotAt i).ownerPosition)
    (hpa : s.handle.isSome = true ↔ s.authority.state = .active)
    (hpe : pending = if s.authority.state = .vacant then some i else none) :
    Exact (t.setSlot i s) pending := by
  subst hpe
  have hl := lt_length_of_state hi
  have hat := slotAt_setSlot (t := t) hl s
  have hid : ∀ o, (t.setSlot i s).indices o = t.indices o := fun _ => rfl
  have hp : (fun k => ((t.setSlot i s).slotAt k).ownerPosition) =
      fun k => (t.slotAt k).ownerPosition := by
    funext k
    rw [hat]
    split
    · next hk => rw [hk, hpos]
    · rfl
  refine ⟨h.shape, ?_, ?_, h.free_nodup, ?_, ?_, ?_⟩
  · intro o
    rw [hp]
    exact h.indexed o
  · intro o k
    rw [hid, h.mem_iff, hat, state_setSlot hl]
    by_cases hk : k = i
    · subst hk
      rw [if_pos rfl, if_pos rfl, ho]
      refine and_congr_right fun _ => iff_of_true (.inl hi) ?_
      by_cases hs : s.authority.state = .vacant
      · exact .inr (if_pos hs)
      · exact .inl hs
    · rw [if_neg hk, if_neg hk]
      refine and_congr_right fun _ => or_congr_right (iff_of_false nofun fun heq => ?_)
      split at heq
      · exact hk (Option.some.inj heq).symm
      · cases heq
  · intro k
    have hf : (t.setSlot i s).free = t.free := rfl
    rw [hf, h.free_iff, length_setSlot, hat]
    by_cases hk : k = i
    · subst hk
      refine and_congr_right fun _ => iff_of_false ?_ ?_
      · rintro ⟨hr, -⟩
        simp only [HandleSlot.reusable, Bool.and_eq_true, beq_iff_eq] at hr
        exact hi hr.1
      · rintro ⟨hr, hne⟩
        simp only [HandleSlot.reusable, Bool.and_eq_true, beq_iff_eq] at hr
        exact hne (if_pos hr.1)
    · rw [if_neg hk]
      refine and_congr_right fun _ => and_congr_right fun _ => iff_of_true nofun fun heq => ?_
      split at heq
      · exact hk (Option.some.inj heq).symm
      · cases heq
  · intro k
    rw [hat, state_setSlot hl]
    split
    · exact hpa
    · exact h.payload k
  · intro k hk
    split at hk
    · next hs =>
      cases hk
      rw [length_setSlot, state_setSlot hl, if_pos rfl]
      exact ⟨hl, hs⟩
    · cases hk

structure Moved (t t' : Slots P) : Prop where
  length : t'.slots.length = t.slots.length
  slotLimit : t'.slotLimit = t.slotLimit
  slot : ∀ k, ∃ p ≤ (t.slotAt k).ownerPosition, t'.slotAt k = { t.slotAt k with ownerPosition := p }

theorem slotAt_reposition {moved : Option (Nat × Nat)}
    (hm : ∀ m q, moved = some (m, q) → m < t.slots.length) (k : Nat) :
    (t.reposition moved).slotAt k = { t.slotAt k with
      ownerPosition := OwnerSlots.repositioned (fun k => (t.slotAt k).ownerPosition) moved k } := by
  cases moved with
  | none => rfl
  | some moved =>
    obtain ⟨m, q⟩ := moved
    refine (slotAt_setSlot (hm m q rfl) { t.slotAt m with ownerPosition := q } k).trans ?_
    by_cases hk : k = m
    · subst hk
      rw [if_pos rfl, OwnerSlots.repositioned, update_self]
    · rw [if_neg hk, OwnerSlots.repositioned, update_of_ne hk]

@[simp] theorem length_reposition (t : Slots P) (moved : Option (Nat × Nat)) :
    (t.reposition moved).slots.length = t.slots.length := by
  cases moved with
  | none => rfl
  | some moved => exact length_setSlot _ _ _

theorem vacate_eq {s : OwnerSlots} (hs : t.byOwner (t.slotAt i).owner = some s) :
    t.vacate i =
      let (rest, moved, empty) := s.remove (t.slotAt i).ownerPosition
      { t.reposition moved with
        byOwner := Function.update t.byOwner (t.slotAt i).owner (if empty then none else some rest)
        free := if (t.slotAt i).authority.reusable then i :: t.free else t.free } := by
  have hk : ∀ moved, (t.reposition moved).byOwner = t.byOwner ∧
      (t.reposition moved).free = t.free := by
    intro moved
    cases moved <;> exact ⟨rfl, rfl⟩
  unfold vacate removeOwnerIndex
  simp only [hs, (hk _).1]
  split
  · simp only [(hk _).2]
  · simp only [← (hk (s.remove (t.slotAt i).ownerPosition).2.1).2]

theorem Exact.vacate (h : Exact t (some i)) : Exact (t.vacate i) none ∧ Moved t (t.vacate i) := by
  obtain ⟨hln, hv⟩ := h.pending_vacant i rfl
  have hmm : i ∈ t.indices (t.slotAt i).owner := (h.mem_iff _ i).mpr ⟨rfl, .inr rfl⟩
  obtain ⟨s, hs⟩ : ∃ s, t.byOwner (t.slotAt i).owner = some s := by
    cases hs : t.byOwner (t.slotAt i).owner with
    | none =>
      rw [indices, hs] at hmm
      cases hmm
    | some s => exact ⟨s, rfl⟩
  have hl : t.indices (t.slotAt i).owner = s.toList := by rw [indices, hs]; rfl
  have hat := (h.indexed (t.slotAt i).owner).getElem? hmm
  have hid := h.indexed (t.slotAt i).owner
  rw [hl] at hat hid
  have hva := vacate_eq hs
  obtain ⟨hl', hvalid, hmv, hid'⟩ := OwnerSlots.remove_spec (h.shape _ s hs) hid hat
  generalize s.remove (t.slotAt i).ownerPosition = r at hva hl' hvalid hmv hid'
  obtain ⟨rest, moved, empty⟩ := r
  have hmo : ∀ m q, moved = some (m, q) → (t.slotAt m).owner = (t.slotAt i).owner ∧
      (t.state m ≠ .vacant ∨ some i = some m) := by
    intro m q hm
    have hin := ((hid.mem_swapRemove hat).mp (hmv m q hm).1).1
    rwa [← hl, h.mem_iff] at hin
  have hmt : ∀ m q, moved = some (m, q) → m < t.slots.length := fun m q hm =>
    (hmo m q hm).2.elim lt_length_of_state fun heq => (h.pending_vacant m heq).1
  have hsl : ∀ k, (t.vacate i).slotAt k = { t.slotAt k with
      ownerPosition := OwnerSlots.repositioned (fun k => (t.slotAt k).ownerPosition) moved k } := by
    intro k
    rw [hva]
    exact slotAt_reposition hmt k
  have hpos : (fun k => ((t.vacate i).slotAt k).ownerPosition) =
      OwnerSlots.repositioned (fun k => (t.slotAt k).ownerPosition) moved := by
    funext k
    rw [hsl]
  have his : ∀ o, (t.vacate i).indices o = if o = (t.slotAt i).owner then
      swapRemove s.toList (t.slotAt i).ownerPosition else t.indices o := by
    intro o
    rw [hva]
    by_cases ho : o = (t.slotAt i).owner
    · subst ho
      rw [if_pos rfl, ← hl', indices]
      dsimp only
      rw [update_self]
      cases empty <;> rfl
    · rw [if_neg ho, indices]
      dsimp only
      rw [update_of_ne ho]
      rfl
  have hst : ∀ k, (t.vacate i).state k = t.state k := by
    intro k
    rw [state, hsl]
    rfl
  have hle : (t.vacate i).slots.length = t.slots.length := by
    rw [hva]
    exact length_reposition t moved
  have hf : (t.vacate i).free =
      if (t.slotAt i).authority.reusable then i :: t.free else t.free := by
    rw [hva]
  have hn : i ∉ t.free := fun hi => ((h.free_iff i).mp hi).2.2 rfl
  refine ⟨⟨?_, ?_, ?_, ?_, ?_, ?_, nofun⟩, hle, ?_, fun k => ⟨_, ?_, hsl k⟩⟩
  · intro o s' hs'
    rw [hva] at hs'
    dsimp only at hs'
    by_cases ho : o = (t.slotAt i).owner
    · subst ho
      rw [update_self] at hs'
      cases empty with
      | true => cases hs'
      | false =>
        cases hs'
        exact hvalid rfl
    · rw [update_of_ne ho] at hs'
      exact h.shape o s' hs'
  · intro o
    rw [his, hpos]
    split
    · exact hid'
    · next ho =>
      intro p k hk
      -- only an index of the same owner moves
      have hko := ((h.mem_iff o k).mp (mem_of_getElem? hk)).1
      rw [OwnerSlots.repositioned_of_ne fun q hq => ho (hko.symm.trans (hmo k q hq).1)]
      exact h.indexed o p k hk
  · intro o k
    rw [his, hsl, hst]
    by_cases ho : o = (t.slotAt i).owner
    · rw [if_pos ho, hid.mem_swapRemove hat, ← hl, h.mem_iff, ho]
      constructor
      · rintro ⟨⟨hk, hli⟩, hne⟩
        exact ⟨hk, .inl (hli.resolve_right fun heq => hne (Option.some.inj heq).symm)⟩
      · rintro ⟨hk, hli⟩
        have hnv := hli.resolve_right nofun
        refine ⟨⟨hk, .inl hnv⟩, ?_⟩
        rintro rfl
        exact hnv hv
    · rw [if_neg ho, h.mem_iff]
      refine and_congr_right fun hk => or_congr_right (iff_of_false ?_ nofun)
      intro heq
      cases heq
      exact ho hk.symm
  · rw [hf]
    split
    · exact nodup_cons.mpr ⟨hn, h.free_nodup⟩
    · exact h.free_nodup
  · intro k
    rw [hf, hle, hsl]
    by_cases hk : k = i
    · subst hk
      split
      · next hr => exact iff_of_true mem_cons_self ⟨hln, hr, nofun⟩
      · next hr => exact iff_of_false hn fun hk => hr hk.2.1
    · have hme : k ∈ (if (t.slotAt i).authority.reusable = true then i :: t.free else t.free) ↔
          k ∈ t.free := by
        split
        · rw [mem_cons, or_iff_right hk]
        · rfl
      rw [hme, h.free_iff]
      refine and_congr_right fun _ => and_congr_right fun _ => iff_of_true (fun heq => ?_) nofun
      exact hk (Option.some.inj heq).symm
  · intro k
    rw [hst, hsl]
    exact h.payload k
  · rw [hva]
    cases moved <;> rfl
  · exact OwnerSlots.repositioned_le (fun m q hm => (hmv m q hm).2) k

end Slots
end Xolotl.Kernel
