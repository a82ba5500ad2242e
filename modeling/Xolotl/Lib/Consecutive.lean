import Mathlib

/-! Lists of items that carry consecutive numbers, such as the retained end of a numbered log:
items are appended at the end, dropped at the front and found by their numbers. -/

def Consecutive {α : Type*} (number : α → Nat) (first : Nat) (items : List α) : Prop :=
  items.map number = List.range' first items.length

namespace Consecutive

open List

variable {α : Type*} {number : α → Nat} {first : Nat} {items : List α} {item : α}

theorem nil (number : α → Nat) (first : Nat) : Consecutive number first [] := rfl

variable (h : Consecutive number first items)
include h

theorem concat (hn : number item = first + items.length) :
    Consecutive number first (items ++ [item]) := by
  unfold Consecutive at ⊢
  rw [map_append, h, length_append, length_singleton, List.range'_1_concat, map_singleton, hn]

theorem drop (count : Nat) : Consecutive number (first + count) (items.drop count) := by
  unfold Consecutive at ⊢
  rw [map_drop, h, drop_range', length_drop, Nat.mul_one]

theorem getElem? {index : Nat} (hi : items[index]? = some item) : number item = first + index := by
  have hm : (items.map number)[index]? = some (number item) := by
    rw [List.getElem?_map, hi]
    rfl
  rw [h] at hm
  obtain ⟨hlt, heq⟩ := List.getElem?_eq_some_iff.mp hm
  rw [getElem_range', Nat.one_mul] at heq
  exact heq.symm

theorem mem_iff : item ∈ items ↔ first ≤ number item ∧ items[number item - first]? = some item := by
  constructor
  · intro hm
    obtain ⟨index, hi⟩ := mem_iff_getElem?.mp hm
    have hn := h.getElem? hi
    rw [hn, Nat.add_sub_cancel_left]
    exact ⟨Nat.le_add_right _ _, hi⟩
  · exact fun hm => mem_of_getElem? hm.2

theorem bounds (hm : item ∈ items) :
    first ≤ number item ∧ number item < first + items.length := by
  obtain ⟨hle, hg⟩ := h.mem_iff.mp hm
  have hlt := (List.getElem?_eq_some_iff.mp hg).1
  omega

theorem unique {other : α} (hi : item ∈ items)
    (ho : other ∈ items) (heq : number item = number other) : item = other := by
  have hg := (h.mem_iff.mp hi).2
  rw [heq, (h.mem_iff.mp ho).2] at hg
  exact (Option.some.inj hg).symm

theorem exists_item {n : Nat} (hf : first ≤ n)
    (hlast : n < first + items.length) :
    ∃ item, items[n - first]? = some item ∧ number item = n := by
  have hlt : n - first < items.length := by omega
  refine ⟨items[n - first], List.getElem?_eq_getElem hlt, ?_⟩
  have hn := h.getElem? (List.getElem?_eq_getElem hlt)
  omega

theorem lt_of_dropped {count : Nat} (hm : item ∈ items)
    (hd : item ∉ items.drop count) : number item < first + count := by
  by_contra hge
  obtain ⟨hle, hg⟩ := h.mem_iff.mp hm
  refine hd (mem_of_getElem? (i := number item - first - count) ?_)
  rw [List.getElem?_drop]
  have hi : count + (number item - first - count) = number item - first := by omega
  rw [hi]
  exact hg

end Consecutive
