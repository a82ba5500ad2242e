import Mathlib

/-! A dense list of members, each of which remembers its position. Members are
appended at the end and removed by moving the last one into the gap, so that one
remembered position changes per removal. -/

namespace DenseIndex

open List

variable {α : Type*}

def Indexed (l : List α) (pos : α → Nat) : Prop := ∀ p a, l[p]? = some a → pos a = p

def swapRemove (l : List α) (i : Nat) : List α :=
  match l.getLast? with
  | none => []
  | some last => (l.set i last).dropLast

variable {l : List α} {pos pos' : α → Nat} {i p : Nat} {a b : α} (h : Indexed l pos)
include h

theorem Indexed.getElem? (ha : a ∈ l) : l[pos a]? = some a := by
  obtain ⟨p, hp⟩ := mem_iff_getElem?.mp ha
  rw [h p a hp]
  exact hp

theorem Indexed.nodup : l.Nodup := by
  rw [nodup_iff_getElem?_ne_getElem?]
  intro p q hpq hq heq
  have ha : l[q]? = some l[q] := List.getElem?_eq_getElem hq
  have hp := h p _ (heq.trans ha)
  have hq' := h q _ ha
  omega

theorem Indexed.append (hpos : pos' a = l.length)
    (hk : ∀ b ∈ l, pos' b = pos b) : Indexed (l ++ [a]) pos' := by
  intro p b hb
  rcases Nat.lt_trichotomy p l.length with hp | hp | hp
  · rw [List.getElem?_append_left hp] at hb
    rw [hk b (mem_of_getElem? hb)]
    exact h p b hb
  · subst hp
    rw [List.getElem?_append_right (Nat.le_refl _), Nat.sub_self] at hb
    obtain rfl : a = b := Option.some.inj hb
    exact hpos
  · rw [List.getElem?_eq_none] at hb
    · cases hb
    · rw [length_append]
      exact hp

/-! ## Removal -/

omit h in
theorem length_swapRemove (hi : i < l.length) : (swapRemove l i).length + 1 = l.length := by
  have hne : l ≠ [] := ne_nil_of_length_pos (Nat.zero_lt_of_lt hi)
  rw [swapRemove, List.getLast?_eq_some_getLast hne]
  simp only [length_dropLast, length_set]
  omega

omit h in
theorem getElem?_swapRemove (hi : i < l.length) (p : Nat) : (swapRemove l i)[p]? =
    if p + 1 < l.length then (if p = i then l[l.length - 1]? else l[p]?) else none := by
  have hne : l ≠ [] := ne_nil_of_length_pos (Nat.zero_lt_of_lt hi)
  by_cases hp : p + 1 < l.length
  · rw [if_pos hp, swapRemove, List.getLast?_eq_some_getLast hne]
    rw [List.getElem?_dropLast, length_set, if_pos (by omega)]
    by_cases hpi : p = i
    · subst hpi
      rw [if_pos rfl, List.getElem?_set_self hi, getLast_eq_getElem, List.getElem?_eq_getElem]
    · rw [if_neg hpi, List.getElem?_set_ne (Ne.symm hpi)]
  · rw [if_neg hp]
    refine List.getElem?_eq_none ?_
    have hl := length_swapRemove hi
    omega

omit h in
theorem getElem?_of_swapRemove (hi : i < l.length) (hb : (swapRemove l i)[p]? = some b) :
    (p = i ∧ l[l.length - 1]? = some b) ∨ p ≠ i ∧ p + 1 < l.length ∧ l[p]? = some b := by
  rw [getElem?_swapRemove hi] at hb
  split_ifs at hb with hp hpi
  · exact Or.inl ⟨hpi, hb⟩
  · exact Or.inr ⟨hpi, hp, hb⟩

theorem Indexed.mem_swapRemove (ha : l[i]? = some a) : b ∈ swapRemove l i ↔ b ∈ l ∧ b ≠ a := by
  have hi : i < l.length := (List.getElem?_eq_some_iff.mp ha).1
  have hpo := h i a ha
  constructor
  · intro hb
    obtain ⟨p, hp⟩ := mem_iff_getElem?.mp hb
    have hl := (List.getElem?_eq_some_iff.mp hp).1
    have hs := length_swapRemove hi
    rcases getElem?_of_swapRemove hi hp with ⟨rfl, hlast⟩ | ⟨hpi, -, hb⟩
    · refine ⟨mem_of_getElem? hlast, ?_⟩
      rintro rfl
      have hlast' := h _ _ hlast
      omega
    · refine ⟨mem_of_getElem? hb, ?_⟩
      rintro rfl
      exact hpi ((h _ _ hb).symm.trans hpo)
  · rintro ⟨hb, hne⟩
    have hat := h.getElem? hb
    have hlt := (List.getElem?_eq_some_iff.mp hat).1
    have hbi : pos b ≠ i := by
      intro hbi
      rw [hbi, ha] at hat
      exact hne (Option.some.inj hat).symm
    -- a member moves only when it was the last one
    by_cases hlast : pos b = l.length - 1
    · refine mem_of_getElem? (i := i) ?_
      rw [getElem?_swapRemove hi, if_pos (by omega), if_pos rfl, ← hlast]
      exact hat
    · refine mem_of_getElem? (i := pos b) ?_
      rw [getElem?_swapRemove hi, if_pos (by omega), if_neg hbi]
      exact hat

theorem Indexed.swapRemove (hi : i < l.length)
    (hm : ∀ b, (swapRemove l i)[i]? = some b → pos' b = i)
    (hk : ∀ b ∈ DenseIndex.swapRemove l i, (DenseIndex.swapRemove l i)[i]? ≠ some b →
      pos' b = pos b) :
    Indexed (DenseIndex.swapRemove l i) pos' := by
  intro p b hb
  by_cases hpi : p = i
  · rw [hpi] at hb ⊢
    exact hm b hb
  · rcases getElem?_of_swapRemove hi hb with ⟨hp, -⟩ | ⟨-, hp, hold⟩
    · exact absurd hp hpi
    · rw [hk b (mem_of_getElem? hb) ?_]
      · exact h p b hold
      · intro hmo
        rcases getElem?_of_swapRemove hi hmo with ⟨-, hlast⟩ | ⟨hne, -⟩
        · have h₁ := h p b hold
          have h₂ := h _ b hlast
          omega
        · exact hne rfl

theorem Indexed.position_le (hi : i < l.length)
    (hb : (DenseIndex.swapRemove l i)[i]? = some b) : i ≤ pos b := by
  rcases getElem?_of_swapRemove hi hb with ⟨-, hlast⟩ | ⟨hne, -⟩
  · have hpos := h _ b hlast
    omega
  · exact absurd rfl hne

end DenseIndex
