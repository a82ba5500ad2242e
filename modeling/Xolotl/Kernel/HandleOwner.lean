import Xolotl.Kernel.HandleReclaim

/-! Installing handles, and releasing or revoking all handles of one owner. Whole
histories of a table keep its index exact. -/

namespace Xolotl.Kernel

open DenseIndex List Function
open Xolotl.Core (HandleSlot HandleKey HandleSlotChange AuthorityError SlotState)
open Xolotl.Core.HandleTable (attachChild_ok install_slot_ok)

variable {P : Type}

/-! ## Installing -/

namespace Slots

variable {t : Slots P} {o index position : Nat}

theorem indices_of_none (h : t.byOwner o = none) : t.indices o = [] := by
  rw [indices, h]
  rfl

theorem indices_of_some {s : OwnerSlots} (h : t.byOwner o = some s) : t.indices o = s.toList := by
  rw [indices, h]
  rfl

theorem length_indices (t : Slots P) (o : Nat) :
    (t.indices o).length = ((t.byOwner o).map OwnerSlots.len).getD 0 := by
  cases h : t.byOwner o with
  | none => rw [indices_of_none h]; rfl
  | some s => rw [indices_of_some h, ← s.len_eq]; rfl

theorem Exact.byOwner_none {pending : Option Nat} (h : Exact t pending)
    (ho : t.indices o = []) : t.byOwner o = none := by
  cases hs : t.byOwner o with
  | none => rfl
  | some s =>
    rw [indices_of_some hs] at ho
    exact absurd ho (OwnerSlots.toList_ne_nil (h.shape o s hs))

def Next (t : Slots P) (index : Nat) : Prop :=
  (∃ rest, t.free = index :: rest) ∧ index < t.slots.length ∨ t.free = [] ∧ index = t.slots.length

theorem Exact.nextIndex (h : Exact t none) (hi : t.nextIndex = .ok index) :
    t.state index = .vacant ∧ t.Next index := by
  unfold Slots.nextIndex at hi
  cases hf : t.free with
  | cons head rest =>
    rw [hf] at hi
    cases hi
    obtain ⟨hlt, hr, -⟩ := (h.free_iff index).mp (by rw [hf]; exact mem_cons_self)
    simp only [HandleSlot.reusable, Bool.and_eq_true, beq_iff_eq] at hr
    exact ⟨hr.1, .inl ⟨⟨rest, hf⟩, hlt⟩⟩
  | nil =>
    rw [hf] at hi
    split_ifs at hi
    cases hi
    refine ⟨?_, .inr ⟨hf, rfl⟩⟩
    rw [state, slotAt_of_le (Nat.le_refl _)]

theorem slotAt_place (position : Nat) (authority : HandleSlot) (handle : Handle P)
    (hi : t.Next index) (k : Nat) :
    (t.place index position authority handle).slotAt k = if k = index then
      { authority, owner := handle.process, ownerPosition := position, handle := some handle }
      else t.slotAt k := by
  rcases hi with ⟨⟨rest, hf⟩, hlt⟩ | ⟨hf, rfl⟩
  · have hs : (t.place index position authority handle).slots = t.slots.set index
        { authority, owner := handle.process, ownerPosition := position
          handle := some handle } := by
      rw [place, hf]
      rfl
    rw [← slotAt_setSlot hlt, slotAt, hs]
    rfl
  · have hs : (t.place t.slots.length position authority handle).slots = t.slots ++
        [{ authority, owner := handle.process, ownerPosition := position
           handle := some handle }] := by
      rw [place, hf]
      rfl
    rw [slotAt, hs]
    rcases Nat.lt_trichotomy k t.slots.length with hk | hk | hk
    · rw [List.getElem?_append_left hk, if_neg hk.ne, slotAt]
    · rw [hk, List.getElem?_append_right (Nat.le_refl _), Nat.sub_self, if_pos rfl]
      rfl
    · rw [List.getElem?_eq_none, if_neg hk.ne', slotAt_of_le hk.le]
      · rfl
      · rw [length_append]
        exact hk

theorem indices_place (t : Slots P) (index position : Nat) (authority : HandleSlot)
    (handle : Handle P) (o : Nat) : (t.place index position authority handle).indices o =
      if o = handle.process then t.indices o ++ [index] else t.indices o := by
  have hby : (t.place index position authority handle).byOwner =
      Function.update t.byOwner handle.process
        (some (((t.byOwner handle.process).map fun s => s.push index).getD (.one index))) := rfl
  by_cases ho : o = handle.process
  · subst ho
    rw [if_pos rfl, indices, hby, update_self]
    cases hs : t.byOwner handle.process with
    | none => rw [indices_of_none hs]; rfl
    | some s => rw [indices_of_some hs]; cases s <;> rfl
  · rw [if_neg ho, indices, hby, update_of_ne ho]
    rfl

variable {authority a : HandleSlot} {handle : Handle P}

theorem Exact.place (h : Exact t none) (hi : t.nextIndex = .ok index)
    (hpos : position = (t.indices handle.process).length) (ha : authority.state = .active) :
    Exact (t.place index position authority handle) none := by
  obtain ⟨hv, hc⟩ := h.nextIndex hi
  have hat := slotAt_place position authority handle hc
  have hin := t.indices_place index position authority handle
  set t' := t.place index position authority handle with ht'
  have hst : ∀ k, t'.state k = if k = index then .active else t.state k := by
    intro k
    rw [state, hat]
    split
    · exact ha
    · rfl
  have hu : ∀ o, index ∉ t.indices o := by
    intro o hm
    exact ((h.mem_iff o index).mp hm).2.elim (fun h => h hv) (by rintro ⟨⟩)
  have hl : ∀ k, k < t'.slots.length ↔ k < t.slots.length ∨ k = index := by
    intro k
    rcases hc with ⟨⟨rest, hf⟩, hlt⟩ | ⟨hf, rfl⟩
    · simp only [ht', Slots.place, hf, isEmpty_cons, Bool.false_eq_true, if_false, length_set]
      omega
    · simp only [ht', Slots.place, hf, isEmpty_nil, if_true, length_append, length_singleton]
      omega
  have ht : ∀ k, k ∈ t'.free ↔ k ≠ index ∧ k ∈ t.free := by
    intro k
    show k ∈ t.free.tail ↔ _
    have hnd := h.free_nodup
    rcases hc with ⟨⟨rest, hf⟩, -⟩ | ⟨hf, -⟩
    · rw [hf] at hnd ⊢
      have hno := (nodup_cons.mp hnd).1
      rw [mem_cons]
      constructor
      · intro hk
        refine ⟨?_, .inr hk⟩
        rintro rfl
        exact hno hk
      · rintro ⟨hne, hk⟩
        exact hk.resolve_left hne
    · simp [hf]
  have hke : ∀ o, ∀ k ∈ t.indices o, (t'.slotAt k).ownerPosition = (t.slotAt k).ownerPosition := by
    intro o k hk
    rw [hat, if_neg]
    rintro rfl
    exact hu o hk
  refine ⟨?_, ?_, ?_, ?_, ?_, ?_, by rintro _ ⟨⟩⟩
  · intro o s hs
    by_cases ho : o = handle.process
    · subst ho
      have hn : (((t.byOwner handle.process).map fun s => s.push index).getD (.one index)) = s := by
        have heq := hs
        rw [show t'.byOwner handle.process = some _ from update_self ..] at heq
        exact Option.some.inj heq
      rw [← hn]
      cases hold : t.byOwner handle.process with
      | none => exact trivial
      | some s' => exact s'.valid_push (h.shape _ s' hold) index
    · rw [show t'.byOwner o = t.byOwner o from update_of_ne ho ..] at hs
      exact h.shape o s hs
  · intro o
    rw [hin]
    split
    · next ho =>
      refine (h.indexed o).append ?_ (hke o)
      rw [hat, if_pos rfl, hpos, ho]
    · intro p k hk
      show (t'.slotAt k).ownerPosition = p
      rw [hke o k (mem_of_getElem? hk)]
      exact h.indexed o p k hk
  · intro o k
    rw [hin, hst, hat]
    by_cases hk : k = index
    · subst hk
      rw [if_pos rfl, if_pos rfl]
      by_cases ho : o = handle.process
      · rw [if_pos ho]
        exact iff_of_true (mem_append_right _ (mem_singleton_self k)) ⟨ho.symm, .inl (by decide)⟩
      · rw [if_neg ho]
        exact iff_of_false (hu o) fun hk => ho hk.1.symm
    · rw [if_neg hk, if_neg hk, ← h.mem_iff]
      split
      · rw [mem_append, mem_singleton, or_iff_left hk]
      · rfl
  · exact h.free_nodup.tail
  · intro k
    rw [ht, hl, hat]
    by_cases hk : k = index
    · rw [if_pos hk]
      refine iff_of_false (fun h => h.1 hk) fun h => ?_
      have hr := h.2.1
      simp only [HandleSlot.reusable, ha, Bool.and_eq_true] at hr
      cases hr.1
    · rw [h.free_iff]
      simp [hk]
  · intro k
    rw [hat, hst]
    split
    · exact iff_of_true rfl rfl
    · exact h.payload k

theorem Exact.attach (h : Exact t none) {key : HandleKey}
    (ha : (t.slotAt key.slot).authority.attachChild key.generation = .ok a) :
    Exact (t.setAuthority key.slot a) none := by
  obtain ⟨hm, rfl⟩ := attachChild_ok ha
  have hac : t.state key.slot = .active := by
    simp only [HandleSlot.isMatch, Bool.and_eq_true, beq_iff_eq] at hm
    exact hm.1
  have hi : t.state key.slot ≠ .vacant := by
    rw [hac]
    decide
  exact h.change hi rfl rfl (h.payload key.slot) (if_neg hi).symm

theorem nextPosition_ok {reserve : Reserve}
    (h : t.nextPosition reserve o = .ok position) : position = (t.indices o).length := by
  unfold nextPosition at h
  dsimp only at h
  rw [length_indices]
  split_ifs at h
  all_goals exact (Except.ok.inj h).symm

/-- A payload is stored under its own identifier and for its own process. -/
def Labelled (t : Slots P) : Prop := ∀ i handle, (t.slotAt i).handle = some handle →
  handle.id = ⟨i, (t.slotAt i).authority.generation⟩ ∧ handle.process = (t.slotAt i).owner

theorem Labelled.place (h : Labelled t) (hi : t.Next index)
    (hid : handle.id = ⟨index, authority.generation⟩) :
    Labelled (t.place index position authority handle) := by
  intro k other hk
  rw [slotAt_place position authority handle hi] at hk ⊢
  split at hk
  · next heq =>
    obtain rfl : handle = other := Option.some.inj hk
    rw [if_pos heq, heq]
    exact ⟨hid, rfl⟩
  · next hne =>
    rw [if_neg hne]
    exact h k other hk

theorem Labelled.attach (h : Labelled t) {key : HandleKey}
    (ha : (t.slotAt key.slot).authority.attachChild key.generation = .ok a) :
    Labelled (t.setAuthority key.slot a) := by
  obtain ⟨hm, rfl⟩ := attachChild_ok ha
  intro k handle hk
  by_cases hlt : key.slot < t.slots.length
  · have hat := slotAt_setSlot hlt { t.slotAt key.slot with authority :=
      { (t.slotAt key.slot).authority with
        children := (t.slotAt key.slot).authority.children + 1 } } k
    rw [setAuthority, hat] at hk ⊢
    split at hk
    · next heq =>
      rw [if_pos heq, heq]
      exact h key.slot handle hk
    · next hne =>
      rw [if_neg hne]
      exact h k handle hk
  · rw [setAuthority, setSlot, set_eq_of_length_le (not_lt.mp hlt)] at hk ⊢
    exact h k handle hk

theorem insertWithParent_cases (h : Exact t none) (reserve : Reserve) (pending : Handle P)
    (parent : Option HandleKey) : (∃ e, t.insertWithParent reserve pending parent = (.error e, t)) ∨
    ∃ id t', t.insertWithParent reserve pending parent = (.ok id, t') ∧ Exact t' none ∧
      (Labelled t → Labelled t') := by
  unfold insertWithParent
  cases hix : t.nextIndex with
  | error e => exact .inl ⟨e, rfl⟩
  | ok index =>
    dsimp only
    cases hi : (if t.free.isEmpty then {} else (t.slotAt index).authority :
        HandleSlot).install parent with
    | error e => exact .inl ⟨e, rfl⟩
    | ok r =>
      obtain ⟨authority, generation⟩ := r
      obtain ⟨-, hg, hau⟩ := install_slot_ok hi
      have hac : authority.state = .active := by rw [hau]
      have hid : (⟨index, generation⟩ : HandleId) = ⟨index, authority.generation⟩ := by
        rw [hg, hau]
      dsimp only
      by_cases hr : (t.free.isEmpty && !reserve.slots) = true
      · rw [if_pos hr]
        exact .inl ⟨_, rfl⟩
      rw [if_neg hr]
      cases hp : t.nextPosition reserve pending.process with
      | error e => exact .inl ⟨e, rfl⟩
      | ok position =>
        have hpos := nextPosition_ok hp
        cases parent with
        | none =>
          exact .inr ⟨_, _, rfl, h.place hix hpos hac,
            fun hl => hl.place (h.nextIndex hix).2 hid⟩
        | some parent =>
          dsimp only
          cases ha : (t.slotAt parent.slot).authority.attachChild parent.generation with
          | error e => exact .inl ⟨e, rfl⟩
          | ok attached =>
            have hn : (t.setAuthority parent.slot attached).nextIndex = .ok index := by
              rw [← hix, nextIndex, setAuthority, length_setSlot]
              rfl
            exact .inr ⟨_, _, rfl, (h.attach ha).place hn hpos hac,
              fun hl => (hl.attach ha).place ((h.attach ha).nextIndex hn).2 hid⟩

end Slots
/-! ## All handles of one owner -/

namespace HandleWrite

open Slots

variable {R : SlotState → Prop} {w w' : HandleWrite P} {l : List Nat}

/-- A property of states that the reclaim loop never brings about. -/
def Fading (R : SlotState → Prop) : Prop := ∀ a a', Yields a a' → R a'.state → R a.state

theorem fading_active : Fading (· = .active) := by
  intro a a' hy ha'
  by_cases hr : a.state = .released
  · rcases hy.released hr with h | h <;> rw [ha'] at h <;> cases h
  · exact (hy.state hr).symm.trans ha'

theorem fading_retained : Fading (· ≠ .vacant) := by
  intro a a' hy ha' ha
  exact ha' ((hy.state (by rw [ha]; exact nofun)).trans ha)

structure Drains (R : SlotState → Prop) (w w' : HandleWrite P) (l : List Nat) : Prop where
  exact : Exact w'.table none
  length : w'.table.slots.length = w.table.slots.length
  slotLimit : w'.table.slotLimit = w.table.slotLimit
  nodup : l.Nodup
  held : ∀ i ∈ l, R (w.table.state i)
  taken : ∀ i ∈ l, ¬ R (w'.table.state i)
  retired : w'.retired = w.retired ++ l.flatMap fun i => (w.table.slotAt i).handle.toList
  other : ∀ k, k ∉ l → Yielded w w' k

theorem Drains.nil (h : Exact w.table none) : Drains R w w [] :=
  ⟨h, rfl, rfl, nodup_nil, nofun, nofun, (append_nil _).symm,
    fun _ _ => ⟨_, _, le_refl _, rfl, .refl _⟩⟩

variable {w₁ : HandleWrite P} {i process count fuel : Nat}

theorem Drains.cons (hR : Fading R) (hi : R (w.table.state i))
    (ht : Takes w w₁ i) (hi' : ¬ R (w₁.table.state i)) (hd : Drains R w₁ w' l) :
    Drains R w w' (i :: l) := by
  have hn : i ∉ l := fun hm => hi' (hd.held i hm)
  have hne : ∀ k ∈ l, k ≠ i := by
    rintro k hk rfl
    exact hn hk
  refine ⟨hd.exact, hd.length.trans ht.length, hd.slotLimit.trans ht.slotLimit,
    nodup_cons.mpr ⟨hn, hd.nodup⟩, ?_, ?_, ?_, ?_⟩
  · intro k hk
    rcases mem_cons.mp hk with rfl | hk
    · exact hi
    · obtain ⟨a, p, -, hs, hy⟩ := ht.other k (hne k hk)
      have hh := hd.held k hk
      rw [state, hs] at hh
      exact hR _ _ hy hh
  · intro k hk
    rcases mem_cons.mp hk with rfl | hk
    · obtain ⟨a, p, -, hs, hy⟩ := hd.other k hn
      rw [state, hs]
      exact fun h => hi' (hR _ _ hy h)
    · exact hd.taken k hk
  · have hsa : (l.flatMap fun k => (w₁.table.slotAt k).handle.toList) =
        l.flatMap fun k => (w.table.slotAt k).handle.toList := by
      refine flatMap_congr fun k hk => ?_
      obtain ⟨a, p, -, hs, -⟩ := ht.other k (hne k hk)
      rw [hs]
    rw [hd.retired, ht.retired, hsa, append_assoc]
    rfl
  · intro k hk
    obtain ⟨hki, hkl⟩ := not_or.mp (mt mem_cons.mpr hk)
    obtain ⟨a, p, hp, hs, hy⟩ := ht.other k hki
    obtain ⟨a', p', hp', hs', hy'⟩ := hd.other k hkl
    rw [hs] at hp' hs' hy'
    exact ⟨a', p', hp'.trans hp, hs', hy.trans hy'⟩

/-! ### Releasing -/

theorem isMatch_idAt (w : HandleWrite P) (i : Nat) :
    (w.table.slotAt (w.idAt i).index).authority.isMatch (w.idAt i).generation = true ↔
      w.table.state i = .active := by
  simp [HandleSlot.isMatch, idAt, state]

theorem retains_idAt (w : HandleWrite P) (i : Nat) :
    (w.table.slotAt (w.idAt i).index).authority.retains (w.idAt i).generation = true ↔
      w.table.state i ≠ .vacant := by
  simp [HandleSlot.retains, idAt, state]

def Owns (w : HandleWrite P) (process i : Nat) : Prop :=
  w.table.state i = .active ∧ (w.table.slotAt i).owner = process

theorem Owns.mem (h : Exact w.table none) (hi : w.Owns process i) :
    i ∈ w.table.indices process := by
  refine (h.mem_iff process i).mpr ⟨hi.2, .inl ?_⟩
  rw [hi.1]
  exact nofun

theorem Owns.after {k : Nat} (ht : Takes w w₁ i)
    (hi : w.Owns process i) : w.Owns process k ↔ k = i ∨ w₁.Owns process k := by
  by_cases hk : k = i
  · subst hk
    exact iff_of_true hi (.inl rfl)
  · obtain ⟨a, p, -, hs, hy⟩ := ht.other k hk
    rw [or_iff_right hk, Owns, Owns, state, state, hs]
    refine and_congr_left fun _ => ⟨fun ha => ?_, fading_active _ _ hy⟩
    exact (hy.state (by rw [ha]; decide)).trans ha

def Walked (process count : Nat) (w : HandleWrite P) (r : Nat × HandleWrite P) : Prop :=
  ∃ l, Drains (· = .active) w r.2 l ∧ (∀ i, i ∈ l ↔ w.Owns process i) ∧ r.1 = count + l.length

theorem walked_nil (h : Exact w.table none)
    (hn : ∀ i, ¬ w.Owns process i) : Walked process count w (count, w) :=
  ⟨[], .nil h, fun i => iff_of_false not_mem_nil (hn i), rfl⟩

theorem walked_cons {r : Nat × HandleWrite P}
    (hi : w.Owns process i) (ht : Takes w w₁ i) (h : Walked process (count + 1) w₁ r) :
    Walked process count w r := by
  obtain ⟨l, hd, hm, hc⟩ := h
  refine ⟨i :: l, hd.cons fading_active hi.1 ht ht.taken, fun k => ?_, ?_⟩
  · rw [mem_cons, hm, hi.after ht]
  · rw [length_cons]
    omega

/-- The cursor passes every active handle of the owner, since none moves past it. -/
theorem releaseLoop_spec {remaining : Nat} (h : Exact w.table none)
    (hc : ∀ i, w.Owns process i → (w.table.slotAt i).ownerPosition < remaining)
    (hfu : remaining ≤ fuel) :
    Walked process count w (releaseLoop process fuel remaining count w) := by
  induction fuel generalizing remaining count w with
  | zero =>
    exact walked_nil h fun i hi => absurd (hc i hi) (by omega)
  | succ fuel ih =>
    unfold releaseLoop
    cases hs : w.table.byOwner process with
    | none =>
      refine walked_nil h fun i hi => ?_
      have hme := hi.mem h
      rw [indices_of_none hs] at hme
      cases hme
    | some s =>
      dsimp only
      have hl := indices_of_some hs
      have hpos : 0 < s.len := by
        rw [s.len_eq]
        exact length_pos_iff.mpr (OwnerSlots.toList_ne_nil (h.shape process s hs))
      by_cases hzero : min remaining s.len = 0
      · rw [if_pos hzero]
        exact walked_nil h fun i hi => absurd (hc i hi) (by omega)
      rw [if_neg hzero]
      have hlt : min remaining s.len - 1 < s.toList.length := by
        rw [← s.len_eq]
        omega
      have hat : s.toList[min remaining s.len - 1]? = some (s.toList[min remaining s.len - 1]) :=
        List.getElem?_eq_getElem hlt
      rw [s.atPosition_eq, hat]
      generalize s.toList[min remaining s.len - 1] = index at hat
      dsimp only
      have ho : (w.table.slotAt index).owner = process := by
        refine ((h.mem_iff process index).mp ?_).1
        rw [hl]
        exact mem_of_getElem? hat
      -- the active handles of the owner that were not passed yet stand before the cursor
      have hb : ∀ i, i ≠ index → w.Owns process i →
          (w.table.slotAt i).ownerPosition < min remaining s.len - 1 := by
        intro i hne hi
        have hcu := hc i hi
        have hg := (h.indexed process).getElem? (hi.mem h)
        rw [hl] at hg
        have hbound := (List.getElem?_eq_some_iff.mp hg).1
        rw [← s.len_eq] at hbound
        have hot : (w.table.slotAt i).ownerPosition ≠ min remaining s.len - 1 := by
          intro heq
          rw [heq, hat] at hg
          exact hne (Option.some.inj hg).symm
        omega
      rcases release_spec h (w.idAt index) with ⟨hm, htr, ht⟩ | ⟨hm, hf⟩
      · have hac : w.Owns process index := ⟨(w.isMatch_idAt index).mp hm, ho⟩
        generalize w.release (w.idAt index) = r at htr ht
        obtain ⟨released, w₁⟩ := r
        obtain rfl : released = true := htr
        refine walked_cons hac ht (ih ht.exact ?_ (by omega))
        intro i hi
        have hne : i ≠ index := by
          rintro rfl
          exact ht.taken hi.1
        obtain ⟨a, p, hp, hsl, -⟩ := ht.other i hne
        have hle := hb i hne ((hac.after ht).mpr (.inr hi))
        rw [hsl]
        exact lt_of_le_of_lt hp hle
      · rw [hf]
        refine ih h (fun i hi => hb i ?_ hi) (by omega)
        rintro rfl
        rw [(w.isMatch_idAt i).mpr hi.1] at hm
        cases hm

theorem releaseLoop_add {remaining : Nat} (extra count : Nat) (w : HandleWrite P)
    (hf : remaining ≤ fuel) : releaseLoop process (fuel + extra) remaining count w =
      releaseLoop process fuel remaining count w := by
  induction fuel generalizing remaining count w with
  | zero =>
    obtain rfl : remaining = 0 := Nat.le_zero.mp hf
    cases extra with
    | zero => rfl
    | succ extra =>
      rw [Nat.zero_add, releaseLoop, releaseLoop]
      cases w.table.byOwner process with
      | none => rfl
      | some s => exact if_pos (Nat.zero_min _)
  | succ fuel ih =>
    rw [Nat.succ_add, releaseLoop, releaseLoop]
    cases w.table.byOwner process with
    | none => rfl
    | some s =>
      dsimp only
      split_ifs with hzero
      · rfl
      · cases s.atPosition (min remaining s.len - 1) with
        | none => rfl
        | some index => exact ih _ _ (by omega)

section

variable (h : Exact w.table none)
include h

theorem releaseOwnedBy_spec (process : Nat) :
    Walked process 0 w (w.releaseOwnedBy process) := by
  unfold releaseOwnedBy
  rw [← length_indices]
  refine releaseLoop_spec h (fun i hi => ?_) (Nat.le_refl _)
  have hg := (h.indexed process).getElem? (hi.mem h)
  exact (List.getElem?_eq_some_iff.mp hg).1

/-! ### Revoking -/

theorem length_indices_lt (hi : i ∈ w.table.indices process) (ht : Takes w w₁ i)
    (hv : w₁.table.state i = .vacant) :
    (w₁.table.indices process).length < (w.table.indices process).length := by
  have hsu : w₁.table.indices process ⊆ (w.table.indices process).erase i := by
    intro k hk
    obtain ⟨ho, hst | hp⟩ := (ht.exact.mem_iff process k).mp hk
    · have hne : k ≠ i := by
        rintro rfl
        exact hst hv
      obtain ⟨a, p, -, hs, hy⟩ := ht.other k hne
      rw [hs] at ho
      rw [state, hs] at hst
      rw [(h.indexed process).nodup.mem_erase_iff, h.mem_iff]
      exact ⟨hne, ho, .inl (fading_retained _ _ hy hst)⟩
    · cases hp
  have hle := ((ht.exact.indexed process).nodup.subperm hsu).length_le
  rw [length_erase_of_mem hi] at hle
  have hpos := length_pos_of_mem hi
  omega

theorem revoke_first {s : OwnerSlots} (hs : w.table.byOwner process = some s) :
    ∃ w₁, w.revoke (w.idAt s.first) = (true, w₁) ∧ Takes w w₁ s.first ∧
      w.table.state s.first ≠ .vacant ∧ w₁.table.state s.first = .vacant ∧
      (w₁.table.indices process).length < (w.table.indices process).length := by
  have hm : s.first ∈ w.table.indices process := by
    rw [indices_of_some hs]
    exact OwnerSlots.first_mem (h.shape process s hs)
  have hst := ((h.mem_iff process s.first).mp hm).2.resolve_right nofun
  rcases revoke_spec h (w.idAt s.first) with ⟨-, htr, ht, hv⟩ | ⟨hr, -⟩
  · exact ⟨_, Prod.ext htr rfl, ht, hst, hv, length_indices_lt h hm ht hv⟩
  · rw [(w.retains_idAt s.first).mpr hst] at hr
    cases hr

theorem revokeLoop_spec (hf : (w.table.indices process).length ≤ fuel) (count : Nat) :
    ∃ l, Drains (· ≠ .vacant) w (revokeLoop process fuel count w).2 l ∧
      (revokeLoop process fuel count w).2.table.indices process = [] := by
  induction fuel generalizing count w with
  | zero => exact ⟨[], .nil h, length_eq_zero_iff.mp (Nat.le_zero.mp hf)⟩
  | succ fuel ih =>
    unfold revokeLoop
    cases hs : w.table.byOwner process with
    | none => exact ⟨[], .nil h, indices_of_none hs⟩
    | some s =>
      obtain ⟨w₁, hr, ht, hst, hv, hl⟩ := revoke_first h hs
      simp only [hr]
      obtain ⟨l, hd, hn⟩ := ih ht.exact (by omega) (count + 1)
      exact ⟨s.first :: l, hd.cons fading_retained hst ht (fun h => h hv), hn⟩

theorem revokeLoop_add (hf : (w.table.indices process).length ≤ fuel) (extra count : Nat) :
    revokeLoop process (fuel + extra) count w = revokeLoop process fuel count w := by
  induction fuel generalizing count w with
  | zero =>
    have hnil := length_eq_zero_iff.mp (Nat.le_zero.mp hf)
    have hn : w.table.byOwner process = none := h.byOwner_none hnil
    cases extra with
    | zero => rfl
    | succ extra => rw [Nat.zero_add, revokeLoop, revokeLoop, hn]
  | succ fuel ih =>
    rw [Nat.succ_add, revokeLoop, revokeLoop]
    cases hs : w.table.byOwner process with
    | none => rfl
    | some s =>
      obtain ⟨w₁, hr, ht, -, -, hl⟩ := revoke_first h hs
      simp only [hr]
      exact ih ht.exact (by omega) _

theorem revokeOwnedBy_spec (process : Nat) :
    ∃ l, Drains (· ≠ .vacant) w (w.revokeOwnedBy process).2 l ∧
      (w.revokeOwnedBy process).2.table.indices process = [] := by
  unfold revokeOwnedBy
  rw [← length_indices]
  exact revokeLoop_spec h (Nat.le_refl _) 0

end

/-! ## Histories -/

theorem labelled_of_kept {S : Nat → Prop} (h : Labelled w.table) (he : Exact w'.table none)
    (hg : ∀ k, S k → w'.table.state k ≠ .active)
    (hke : ∀ k, ¬ S k → Yielded w w' k) : Labelled w'.table := by
  intro k handle hk
  by_cases hs : S k
  · rw [Exact.handle_none he (hg k hs)] at hk
    cases hk
  · obtain ⟨a, p, -, hsl, hy⟩ := hke k hs
    rw [hsl] at hk ⊢
    rw [hy.generation]
    exact h k handle hk

inductive Call (P : Type)
  | insert (reserve : Reserve) (handle : Handle P)
  | derive (reserve : Reserve) (parent : HandleId) (rights : Rights) (kind : DeriveKind)
    (owner : Nat)
  | release (id : HandleId)
  | revoke (id : HandleId)
  | releaseOwnedBy (process : Nat)
  | revokeOwnedBy (process : Nat)
  deriving DecidableEq, Repr

def Call.run : Call P → HandleWrite P → HandleWrite P
  | .insert reserve handle, w => (w.insert reserve handle).2
  | .derive reserve parent rights kind owner, w => (w.derive reserve parent rights kind owner).2
  | .release id, w => (w.release id).2
  | .revoke id, w => (w.revoke id).2
  | .releaseOwnedBy process, w => (w.releaseOwnedBy process).2
  | .revokeOwnedBy process, w => (w.revokeOwnedBy process).2

variable (slotLimit : Option Nat)

def history (calls : List (Call P)) : HandleWrite P :=
  calls.foldl (fun w call => call.run w) { table := { slotLimit } }

def Installs (w : HandleWrite P) (r : Except AuthorityError HandleId × HandleWrite P) : Prop :=
  (∀ e w', r = (.error e, w') → w'.table = w.table) ∧ Exact r.2.table none ∧
    (Labelled w.table → Labelled r.2.table)

theorem installs_error (h : Exact w.table none) (e : AuthorityError) (ht : w'.table = w.table) :
    Installs w (.error e, w') := by
  refine ⟨?_, by rwa [ht], by rw [ht]; exact id⟩
  rintro _ _ ⟨⟩
  exact ht

theorem insertWithParent_spec (h : Exact w.table none) (reserve : Reserve) (handle : Handle P)
    (parent : Option HandleKey) : Installs w (w.insertWithParent reserve handle parent) := by
  unfold insertWithParent
  rcases Slots.insertWithParent_cases h reserve handle parent with ⟨e, heq⟩ | ⟨id, t', heq, hex, hl⟩
  · rw [heq]
    exact installs_error h e rfl
  · rw [heq]
    exact ⟨nofun, hex, hl⟩

theorem derive_spec (h : Exact w.table none) (reserve : Reserve) (parent : HandleId)
    (rights : Rights) (kind : DeriveKind) (owner : Nat) :
    Installs w (w.derive reserve parent rights kind owner) := by
  unfold derive
  cases w.table.get parent with
  | none => exact installs_error h _ rfl
  | some source =>
    dsimp only
    split
    · exact installs_error h _ rfl
    · exact insertWithParent_spec h _ _ _

theorem Call.run_keeps (call : Call P) (h : Exact w.table none ∧ Labelled w.table) :
    Exact (call.run w).table none ∧ Labelled (call.run w).table := by
  obtain ⟨h, hl⟩ := h
  have hta : ∀ {w' i}, Takes w w' i → Exact w'.table none ∧ Labelled w'.table := by
    intro w' i ht
    refine ⟨ht.exact, labelled_of_kept (S := (· = i)) hl ht.exact ?_ ht.other⟩
    rintro k rfl
    exact ht.taken
  cases call with
  | insert reserve handle =>
    obtain ⟨-, hex, hla⟩ := insertWithParent_spec h reserve handle none
    exact ⟨hex, hla hl⟩
  | derive reserve parent rights kind owner =>
    obtain ⟨-, hex, hla⟩ := derive_spec h reserve parent rights kind owner
    exact ⟨hex, hla hl⟩
  | release id =>
    show Exact (w.release id).2.table none ∧ Labelled (w.release id).2.table
    rcases release_spec h id with ⟨-, -, ht⟩ | ⟨-, heq⟩
    · exact hta ht
    · rw [heq]
      exact ⟨h, hl⟩
  | revoke id =>
    show Exact (w.revoke id).2.table none ∧ Labelled (w.revoke id).2.table
    rcases revoke_spec h id with ⟨-, -, ht, -⟩ | ⟨-, heq⟩
    · exact hta ht
    · rw [heq]
      exact ⟨h, hl⟩
  | releaseOwnedBy process =>
    obtain ⟨l, hd, -⟩ := releaseOwnedBy_spec h process
    exact ⟨hd.exact, labelled_of_kept hl hd.exact hd.taken hd.other⟩
  | revokeOwnedBy process =>
    obtain ⟨l, hd, -⟩ := revokeOwnedBy_spec h process
    refine ⟨hd.exact, labelled_of_kept (S := (· ∈ l)) hl hd.exact (fun k hk ha => ?_) hd.other⟩
    exact hd.taken k hk fun hv => nomatch ha.symm.trans hv

theorem exact_empty :
    Exact ({ slotLimit } : Slots P) none ∧ Labelled ({ slotLimit } : Slots P) := by
  refine ⟨⟨nofun, fun o => nofun, fun o i => ?_, nodup_nil, fun i => ?_, fun i => ?_,
    nofun⟩, fun i handle => nofun⟩
  · exact iff_of_false not_mem_nil fun h => h.2.elim (fun h => h rfl) nofun
  · exact iff_of_false not_mem_nil fun h => Nat.not_lt_zero i h.1
  · exact iff_of_false nofun nofun

theorem history_keeps (calls : List (Call P)) :
    Exact (history slotLimit calls).table none ∧ Labelled (history slotLimit calls).table :=
  List.foldlRecOn (motive := fun w : HandleWrite P => Exact w.table none ∧ Labelled w.table) calls _
    (exact_empty slotLimit) fun _ h call _ => call.run_keeps h

/-- In every history the owner index and the free list are exact. Releasing the handles
of a process releases its active ones, each once, and no other; revoking them leaves it
none; and a failed installation changes nothing. -/
theorem owner_index_exact (slotLimit : Option Nat) (calls : List (Call P)) :
    let w := history slotLimit calls
    (∀ i, w.table.state i = .active → ∃ handle, (w.table.slotAt i).handle = some handle ∧
      handle.id = w.idAt i ∧
      (w.table.indices handle.process)[(w.table.slotAt i).ownerPosition]? = some i ∧
      (w.table.indices handle.process).count i = 1 ∧
      ∀ o, o ≠ handle.process → i ∉ w.table.indices o) ∧
    (w.table.free.Nodup ∧ ∀ i, i ∈ w.table.free ↔
      i < w.table.slots.length ∧ (w.table.slotAt i).authority.reusable = true) ∧
    (∀ process, (∃ l, Drains (· = .active) w (w.releaseOwnedBy process).2 l ∧
        (∀ i, i ∈ l ↔ w.Owns process i) ∧ (w.releaseOwnedBy process).1 = l.length) ∧
      ∀ extra, releaseLoop process ((w.table.indices process).length + extra)
        (w.table.indices process).length 0 w = w.releaseOwnedBy process) ∧
    (∀ process, (∀ i, ¬ (w.revokeOwnedBy process).2.Owns process i) ∧
      (w.revokeOwnedBy process).2.table.byOwner process = none ∧
      ∀ extra, revokeLoop process ((w.table.indices process).length + extra) 0 w =
        w.revokeOwnedBy process) ∧
    (∀ reserve handle e w', w.insert reserve handle = (.error e, w') → w'.table = w.table) ∧
    ∀ reserve parent rights kind owner e w',
      w.derive reserve parent rights kind owner = (.error e, w') → w'.table = w.table := by
  intro w
  obtain ⟨h, hlabelled⟩ : Exact w.table none ∧ Labelled w.table := history_keeps slotLimit calls
  refine ⟨fun i hi => ?_, ⟨h.free_nodup, fun i => ?_⟩, fun process => ⟨?_, fun extra => ?_⟩,
    fun process => ?_, fun reserve handle => (insertWithParent_spec h reserve handle none).1,
    fun reserve parent rights kind owner => (derive_spec h reserve parent rights kind owner).1⟩
  · obtain ⟨handle, hhandle⟩ := Option.isSome_iff_exists.mp ((h.payload i).mpr hi)
    obtain ⟨hid, hprocess⟩ := hlabelled i handle hhandle
    have hmem : i ∈ w.table.indices handle.process := Owns.mem h ⟨hi, hprocess.symm⟩
    refine ⟨handle, hhandle, hid, (h.indexed _).getElem? hmem,
      count_eq_one_of_mem (h.indexed _).nodup hmem, fun o ho hin => ?_⟩
    exact ho (((h.mem_iff o i).mp hin).1.symm.trans hprocess.symm)
  · rw [h.free_iff]
    simp
  · obtain ⟨l, hd, hmem, hcount⟩ := releaseOwnedBy_spec h process
    exact ⟨l, hd, hmem, hcount.trans (Nat.zero_add _)⟩
  · rw [releaseLoop_add extra 0 w (Nat.le_refl _), releaseOwnedBy, ← length_indices]
  · obtain ⟨l, hd, hnil⟩ := revokeOwnedBy_spec h process
    refine ⟨fun i hi => ?_, hd.exact.byOwner_none hnil, fun extra => ?_⟩
    · have hmem := hi.mem hd.exact
      rw [hnil] at hmem
      cases hmem
    · rw [revokeLoop_add h (Nat.le_refl _) extra 0, revokeOwnedBy, ← length_indices]

end HandleWrite
end Xolotl.Kernel
