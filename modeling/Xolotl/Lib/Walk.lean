import Mathlib

/-! Walks along a partial successor function. A walk that ends never visits a
point twice, so inside a finite set it is shorter than the set. Ending survives
the removal of edges and a new edge at a point that its target does not lead
back to. -/

namespace Walk

open Finset
variable {α : Type*} {f g : α → Option α} {a b c : α} {m n : Nat}

def walk (f : α → Option α) (a : α) : Nat → Option α
  | 0 => some a
  | n + 1 => (walk f a n).bind f

def Ends (f : α → Option α) (a : α) : Prop := ∃ n, walk f a n = none

def Visits (f : α → Option α) (a b : α) : Prop := ∃ n, walk f a n = some b

@[simp] theorem walk_zero : walk f a 0 = some a := rfl

theorem walk_succ : walk f a (n + 1) = (walk f a n).bind f := rfl

theorem walk_succ_eq (f : α → Option α) (a : α) (n : Nat) :
    walk f a (n + 1) = (f a).bind (walk f · n) := by
  induction n with
  | zero => simp [walk_succ]
  | succ n ih =>
    rw [walk_succ, ih]
    cases f a <;> rfl

theorem walk_add (f : α → Option α) (a : α) (m n : Nat) :
    walk f a (m + n) = (walk f a m).bind (walk f · n) := by
  induction n with
  | zero => simp
  | succ n ih =>
    rw [← Nat.add_assoc, walk_succ, ih]
    cases walk f a m <;> rfl

theorem walk_none_of_le (h : walk f a m = none) (hmn : m ≤ n) : walk f a n = none := by
  obtain ⟨k, rfl⟩ := Nat.exists_eq_add_of_le hmn
  rw [walk_add, h]
  rfl

theorem visits_refl : Visits f a a := ⟨0, rfl⟩

theorem Visits.trans (hab : Visits f a b) (hbc : Visits f b c) : Visits f a c := by
  obtain ⟨m, hm⟩ := hab
  obtain ⟨n, hn⟩ := hbc
  refine ⟨m + n, ?_⟩
  rw [walk_add, hm]
  exact hn

theorem visits_of_step (h : f a = some b) : Visits f a b := ⟨1, by simp [walk_succ, h]⟩

theorem visits_iff : Visits f a c ↔ a = c ∨ ∃ b, f a = some b ∧ Visits f b c := by
  constructor
  · rintro ⟨n, hn⟩
    cases n with
    | zero => exact .inl (Option.some.inj hn)
    | succ n =>
      rw [walk_succ_eq] at hn
      obtain ⟨b, hb, hn⟩ := Option.bind_eq_some_iff.mp hn
      exact .inr ⟨b, hb, n, hn⟩
  · rintro (rfl | ⟨b, hb, h⟩)
    · exact visits_refl
    · exact (visits_of_step hb).trans h

theorem Visits.eq_or_step (h : Visits f a b) : a = b ∨ ∃ c, f c = some b := by
  obtain ⟨n, hn⟩ := h
  cases n with
  | zero => exact .inl (Option.some.inj hn)
  | succ n =>
    rw [walk_succ, Option.bind_eq_some_iff] at hn
    obtain ⟨c, -, hc⟩ := hn
    exact .inr ⟨c, hc⟩

theorem Visits.closed {p : α → Prop} (hp : ∀ x y, p x → f x = some y → p y) (ha : p a)
    (h : Visits f a b) : p b := by
  obtain ⟨n, hn⟩ := h
  induction n generalizing b with
  | zero => exact Option.some.inj hn ▸ ha
  | succ n ih =>
    rw [walk_succ, Option.bind_eq_some_iff] at hn
    obtain ⟨c, hc, hcb⟩ := hn
    exact hp c b (ih hc) hcb

theorem ends_of_none (h : f a = none) : Ends f a := ⟨1, by simp [walk_succ, h]⟩

theorem ends_iff_of_step (h : f a = some b) : Ends f a ↔ Ends f b := by
  constructor
  · rintro ⟨n, hn⟩
    refine ⟨n, ?_⟩
    have hs := walk_none_of_le hn (Nat.le_succ n)
    rwa [walk_succ_eq, h] at hs
  · rintro ⟨n, hn⟩
    refine ⟨n + 1, ?_⟩
    rw [walk_succ_eq, h]
    exact hn

theorem Ends.of_visits (h : Ends f a) (hv : Visits f a b) : Ends f b := by
  obtain ⟨n, hn⟩ := h
  obtain ⟨m, hm⟩ := hv
  refine ⟨n, ?_⟩
  have hs := walk_none_of_le hn (Nat.le_add_left n m)
  rwa [walk_add, hm] at hs

theorem walk_injective (h : Ends f a) (hm : walk f a m = some b) (hn : walk f a n = some b) :
    m = n := by
  -- A repetition at distance `d` would keep the walk going for ever.
  have key : ∀ d m, walk f a m = some b → walk f a (m + d) = some b → d = 0 := by
    intro d m hm hd
    by_contra hne
    have hlo : walk f b d = some b := by rwa [walk_add, hm] at hd
    have hmu : ∀ k, walk f b (k * d) = some b := by
      intro k
      induction k with
      | zero => simp
      | succ k ih => rw [Nat.succ_mul, walk_add, ih]; exact hlo
    obtain ⟨n, hn⟩ := Ends.of_visits h ⟨m, hm⟩
    have hl := walk_none_of_le hn (Nat.le_mul_of_pos_right n (Nat.pos_of_ne_zero hne))
    rw [hmu] at hl
    cases hl
  rcases Nat.le_total m n with hle | hle
  · obtain ⟨d, rfl⟩ := Nat.exists_eq_add_of_le hle
    have := key d m hm hn
    omega
  · obtain ⟨d, rfl⟩ := Nat.exists_eq_add_of_le hle
    have := key d n hn hm
    omega

theorem Ends.not_visits (h : Ends f a) (hs : f a = some b) : ¬ Visits f b a := by
  rintro ⟨n, hn⟩
  have hl : walk f a (n + 1) = some a := by
    rw [walk_succ_eq, hs]
    exact hn
  exact Nat.succ_ne_zero n (walk_injective h hl walk_zero)

theorem Ends.ne_of_step (h : Ends f a) (hs : f a = some b) : a ≠ b := by
  rintro rfl
  exact h.not_visits hs visits_refl

/-- Inside a finite set, a walk that ends takes fewer steps than the set has points. -/
theorem walk_length_lt [DecidableEq α] {s : Finset α} (h : Ends f a)
    (hs : ∀ b, Visits f a b → b ∈ s) (hn : walk f a n ≠ none) : n < s.card := by
  have hso : ∀ i, i ≤ n → ∃ b, walk f a i = some b := by
    intro i hi
    rcases hw : walk f a i with _ | b
    · exact absurd (walk_none_of_le hw hi) hn
    · exact ⟨b, rfl⟩
  by_contra hle
  -- The first `n + 1` points cannot be distinct members of `s`.
  have hca : s.card < (Finset.range (n + 1)).card := by rw [card_range]; omega
  have hm : ∀ i ∈ Finset.range (n + 1), ((walk f a i).getD a) ∈ s := by
    intro i hi
    obtain ⟨b, hb⟩ := hso i (Nat.lt_succ_iff.mp (mem_range.mp hi))
    rw [hb]
    exact hs b ⟨i, hb⟩
  obtain ⟨i, hi, j, hj, hne, heq⟩ := exists_ne_map_eq_of_card_lt_of_maps_to hca hm
  obtain ⟨b, hb⟩ := hso i (Nat.lt_succ_iff.mp (mem_range.mp hi))
  obtain ⟨c, hc⟩ := hso j (Nat.lt_succ_iff.mp (mem_range.mp hj))
  rw [hb, hc] at heq
  obtain rfl : b = c := heq
  exact hne (walk_injective h hb hc)

theorem walk_of_sub (hsu : ∀ x, g x = f x ∨ g x = none) (h : walk g a n = some b) :
    walk f a n = some b := by
  induction n generalizing b with
  | zero => exact h
  | succ n ih =>
    rw [walk_succ] at ⊢
    obtain ⟨c, hc, hb⟩ := Option.bind_eq_some_iff.mp h
    rw [ih hc]
    rcases hsu c with hs | hs
    · rw [Option.bind_some, ← hs, hb]
    · rw [hs] at hb
      cases hb

theorem Ends.of_sub (hs : ∀ x, g x = f x ∨ g x = none) (h : Ends f a) : Ends g a := by
  obtain ⟨n, hn⟩ := h
  refine ⟨n, ?_⟩
  rcases hg : walk g a n with _ | b
  · rfl
  · rw [walk_of_sub hs hg] at hn
    cases hn

theorem walk_congr (h : ∀ x, Visits f a x → g x = f x) : walk g a n = walk f a n := by
  induction n with
  | zero => rfl
  | succ n ih =>
    rw [walk_succ, walk_succ, ih]
    rcases hw : walk f a n with _ | b
    · rfl
    · exact h b ⟨n, hw⟩

theorem Ends.of_edge (hg : ∀ x, x ≠ c → g x = f x) (hgc : g c = some b)
    (hbc : ¬ Visits f b c) (ha : ∀ x, Ends f x) (a : α) : Ends g a := by
  have hb : Ends g b := by
    obtain ⟨n, hn⟩ := ha b
    refine ⟨n, ?_⟩
    rw [walk_congr fun x hx => hg x fun h => hbc (h ▸ hx)]
    exact hn
  have hc : Ends g c := (ends_iff_of_step hgc).mpr hb
  obtain ⟨n, hn⟩ := ha a
  induction n generalizing a with
  | zero => cases hn
  | succ n ih =>
    by_cases hac : a = c
    · exact hac ▸ hc
    · rw [walk_succ_eq] at hn
      rcases hfa : f a with _ | x
      · exact ends_of_none (by rw [hg a hac, hfa])
      · rw [hfa] at hn
        exact (ends_iff_of_step (by rw [hg a hac, hfa])).mpr (ih x hn)

/-- Points that all have a predecessor among themselves support arbitrarily
long walks; walks that end inside a finite set leave no room for them. -/
theorem eq_empty_of_predecessors [DecidableEq α] {s u : Finset α} (hal : ∀ x, Ends f x)
    (hs : ∀ x ∈ s, ∃ y ∈ s, f y = some x) (hu : ∀ x ∈ s, ∀ y, Visits f x y → y ∈ u) : s = ∅ := by
  by_contra hne
  obtain ⟨a, ha⟩ := nonempty_iff_ne_empty.mpr hne
  have hba : ∀ n, ∃ b ∈ s, walk f b n = some a := by
    intro n
    induction n with
    | zero => exact ⟨a, ha, rfl⟩
    | succ n ih =>
      obtain ⟨b, hb, hw⟩ := ih
      obtain ⟨y, hy, hyb⟩ := hs b hb
      refine ⟨y, hy, ?_⟩
      rw [walk_succ_eq, hyb]
      exact hw
  obtain ⟨b, hb, hw⟩ := hba u.card
  have hlt := walk_length_lt (hal b) (hu b hb) (by rw [hw]; exact Option.some_ne_none a)
  exact lt_irrefl _ hlt

end Walk
