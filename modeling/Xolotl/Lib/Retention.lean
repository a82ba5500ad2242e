import Xolotl.Lib.Consecutive

/-! Numbered logs that forget from the front: every item ever appended, how many have been dropped,
and the ones that are kept. The last dropped item is the anchor of the kept ones. -/

structure Retained {α : Type*} (number : α → Nat) (start : Nat) (items : List α) (dropped : Nat)
    (kept : List α) : Prop where
  numbered : Consecutive number (start + 1) items
  suffix : kept = items.drop dropped
  within : dropped ≤ items.length

def anchor {α : Type*} (items : List α) (dropped : Nat) : Option α := (items.take dropped).getLast?

namespace Retained

open List

variable {α : Type*} {number : α → Nat} {start : Nat} {items : List α} {dropped : Nat}
  {kept : List α} {item : α}

theorem empty (number : α → Nat) (start : Nat) : Retained number start [] 0 [] :=
  ⟨.nil number (start + 1), rfl, Nat.le_refl 0⟩

variable (h : Retained number start items dropped kept)
include h

theorem push (hn : number item = start + items.length + 1) :
    Retained number start (items ++ [item]) dropped (kept ++ [item]) := by
  refine ⟨h.numbered.concat (by omega), ?_, ?_⟩
  · rw [h.suffix, drop_append_of_le_length h.within]
  · rw [length_append]
    exact Nat.le_add_right_of_le h.within

theorem length_kept : kept.length = items.length - dropped := by
  rw [h.suffix, length_drop]

theorem retire {count : Nat} (hc : count ≤ kept.length) :
    Retained number start items (dropped + count) (kept.drop count) := by
  refine ⟨h.numbered, ?_, ?_⟩
  · rw [h.suffix, drop_drop]
  · have hl := h.length_kept
    have hw := h.within
    omega

theorem kept_numbered : Consecutive number (start + dropped + 1) kept := by
  have hd := h.numbered.drop dropped
  rw [← h.suffix, Nat.add_right_comm] at hd
  exact hd

theorem mem_of_kept (hm : item ∈ kept) : item ∈ items := by
  rw [h.suffix] at hm
  exact mem_of_mem_drop hm

theorem mem_kept_iff (hm : item ∈ items) : item ∈ kept ↔ start + dropped < number item := by
  constructor
  · exact fun hk => (h.kept_numbered.bounds hk).1
  · intro hlt
    by_contra hk
    rw [h.suffix] at hk
    have hbound := h.numbered.lt_of_dropped hm hk
    omega

theorem number_getLast
    (hlast : items.getLast? = some item) : number item = start + items.length := by
  rw [List.getLast?_eq_getElem?] at hlast
  have hlt := (List.getElem?_eq_some_iff.mp hlast).1
  have hn := h.numbered.getElem? hlast
  omega

theorem anchor_eq (hd : 0 < dropped) :
    ∃ item ∈ items, anchor items dropped = some item ∧ number item = start + dropped := by
  obtain ⟨item, hi, hn⟩ := h.numbered.exists_item (n := start + dropped) (by omega)
    (by have := h.within; omega)
  have hid : start + dropped - (start + 1) = dropped - 1 := by omega
  rw [hid] at hi
  refine ⟨item, mem_of_getElem? hi, ?_, hn⟩
  rw [anchor, List.getLast?_take, if_neg (by omega), hi]
  rfl

theorem number_anchor (ha : anchor items dropped = some item) :
    0 < dropped ∧ item ∈ items ∧ number item = start + dropped := by
  have hd : 0 < dropped := by
    by_contra hzero
    obtain rfl : dropped = 0 := by omega
    cases ha
  obtain ⟨found, hm, hf, hn⟩ := h.anchor_eq hd
  rw [ha] at hf
  cases hf
  exact ⟨hd, hm, hn⟩

theorem anchor_push (item : α) : anchor (items ++ [item]) dropped = anchor items dropped := by
  rw [anchor, anchor, take_append_of_le_length h.within]

end Retained
