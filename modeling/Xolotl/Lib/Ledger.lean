import Mathlib

/-! Totals over a journal of records that only grows at its end and whose records are
amended in place. An account that was opened later counts only the records from then
on. -/

namespace Ledger

open List

variable {α : Type*}

def total (weight : α → Nat) (since : Nat) (journal : List α) : Nat :=
  ((journal.drop since).map weight).sum

variable {weight : α → Nat} {since i : Nat} {journal : List α} {a b : α}

theorem total_opened (weight : α → Nat) (journal : List α) :
    total weight journal.length journal = 0 := by
  rw [total, drop_length]
  rfl

theorem total_append (h : since ≤ journal.length) :
    total weight since (journal ++ [a]) = total weight since journal + weight a := by
  rw [total, drop_append_of_le_length h, map_append, sum_append]
  rfl

theorem sum_map_set {l : List α} (hi : l[i]? = some a) :
    ((l.set i b).map weight).sum + weight a = (l.map weight).sum + weight b := by
  induction l generalizing i with
  | nil => cases hi
  | cons c l ih =>
    cases i with
    | zero =>
      obtain rfl : c = a := Option.some.inj hi
      simp only [set_cons_zero, map_cons, sum_cons]
      omega
    | succ i =>
      have hr := ih hi
      simp only [set_cons_succ, map_cons, sum_cons]
      omega

theorem total_set (weight : α → Nat) (b : α) (hi : journal[i]? = some a) (hs : since ≤ i) :
    total weight since (journal.set i b) + weight a = total weight since journal + weight b := by
  have hd : (journal.drop since)[i - since]? = some a := by
    rw [List.getElem?_drop, Nat.add_sub_cancel' hs]
    exact hi
  rw [total, drop_set, if_neg (by omega)]
  exact sum_map_set hd

theorem total_set_of_zero (hi : journal[i]? = some a) (ha : weight a = 0) (hb : weight b = 0) :
    total weight since (journal.set i b) = total weight since journal := by
  by_cases hs : since ≤ i
  · have hse := total_set weight b hi hs
    omega
  · rw [total, total, drop_set, if_pos (by omega)]

theorem le_total (weight : α → Nat) (hi : journal[i]? = some a) (hs : since ≤ i) :
    weight a ≤ total weight since journal := by
  have hm : a ∈ journal.drop since := by
    refine mem_of_getElem? (i := i - since) ?_
    rw [List.getElem?_drop, Nat.add_sub_cancel' hs]
    exact hi
  exact le_sum_of_mem (mem_map_of_mem hm)

theorem total_le {bound : α → Nat} (h : ∀ a, weight a ≤ bound a) (since : Nat)
    (journal : List α) : total weight since journal ≤ (journal.map bound).sum := by
  induction journal generalizing since with
  | nil =>
    rw [total, drop_nil]
    exact Nat.le_refl _
  | cons a journal ih =>
    cases since with
    | zero =>
      have hr := ih 0
      have hh := h a
      simp only [total, drop_zero, map_cons, sum_cons] at hr ⊢
      omega
    | succ since => exact (ih since).trans (Nat.le_add_left _ _)

end Ledger
