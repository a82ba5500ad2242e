import Mathlib

/-! Obligations that are incurred and discharged in nested order, per holder. Each
one gets a number of its own when it is incurred; a sound ledger has every number
either discharged, once, or pending with one holder. -/

structure Obligations (κ α : Type*) where
  pending : κ → List (Nat × α)
  discharged : List Nat
  next : Nat

namespace Obligations

open List Function

variable {κ α : Type*} [DecidableEq κ] (g : Obligations κ α)

def empty : Obligations κ α := ⟨fun _ => [], [], 0⟩

def incur (k : κ) (a : α) : Obligations κ α :=
  ⟨Function.update g.pending k ((g.next, a) :: g.pending k), g.discharged, g.next + 1⟩

def discharge (k : κ) : Obligations κ α :=
  ⟨Function.update g.pending k (g.pending k).tail,
    ((g.pending k).head?.map Prod.fst).toList ++ g.discharged, g.next⟩

structure Sound : Prop where
  nodup : g.discharged.Nodup
  discharged_lt : ∀ n ∈ g.discharged, n < g.next
  pending_lt : ∀ k, ∀ e ∈ g.pending k, e.1 < g.next
  pending_open : ∀ k, ∀ e ∈ g.pending k, e.1 ∉ g.discharged
  pending_nodup : ∀ k, ((g.pending k).map Prod.fst).Nodup
  holder_unique : ∀ k k', ∀ e ∈ g.pending k, ∀ e' ∈ g.pending k', e.1 = e'.1 → k = k'
  covered : ∀ n < g.next, n ∈ g.discharged ∨ ∃ k, ∃ e ∈ g.pending k, e.1 = n

variable {g}

omit [DecidableEq κ] in
theorem sound_empty : (empty : Obligations κ α).Sound := by
  constructor <;> simp [empty]

@[simp] theorem pending_incur_self (k : κ) (a : α) :
    (g.incur k a).pending k = (g.next, a) :: g.pending k := update_self ..

theorem pending_incur_other {k k' : κ} (h : k' ≠ k) (a : α) :
    (g.incur k a).pending k' = g.pending k' := update_of_ne h ..

@[simp] theorem pending_discharge_self (k : κ) :
    (g.discharge k).pending k = (g.pending k).tail := update_self ..

theorem pending_discharge_other {k k' : κ} (h : k' ≠ k) :
    (g.discharge k).pending k' = g.pending k' := update_of_ne h ..

theorem mem_incur {k k' : κ} {a : α} {e : Nat × α} :
    e ∈ (g.incur k a).pending k' ↔ (k' = k ∧ e = (g.next, a)) ∨ e ∈ g.pending k' := by
  by_cases hk : k' = k
  · subst hk
    simp
  · simp [pending_incur_other hk, hk]

theorem Sound.incur (h : g.Sound) (k : κ) (a : α) : (g.incur k a).Sound where
  nodup := h.nodup
  discharged_lt n hn := Nat.lt_succ_of_lt (h.discharged_lt n hn)
  pending_lt k' e he := by
    rcases mem_incur.mp he with ⟨-, rfl⟩ | he
    · exact Nat.lt_succ_self _
    · exact Nat.lt_succ_of_lt (h.pending_lt k' e he)
  pending_open k' e he := by
    rcases mem_incur.mp he with ⟨-, rfl⟩ | he
    · exact fun hn => Nat.lt_irrefl _ (h.discharged_lt _ hn)
    · exact h.pending_open k' e he
  pending_nodup k' := by
    by_cases hk : k' = k
    · subst hk
      rw [pending_incur_self, map_cons, nodup_cons]
      refine ⟨fun hm => ?_, h.pending_nodup k'⟩
      obtain ⟨e, he, heq⟩ := mem_map.mp hm
      exact Nat.lt_irrefl _ (heq ▸ h.pending_lt k' e he)
    · rw [pending_incur_other hk]
      exact h.pending_nodup k'
  holder_unique k₁ k₂ e he e' he' heq := by
    rcases mem_incur.mp he with ⟨h₁, rfl⟩ | h₁ <;> rcases mem_incur.mp he' with ⟨h₂, rfl⟩ | h₂
    · rw [h₁, h₂]
    · exact absurd (h.pending_lt k₂ e' h₂) (heq ▸ Nat.lt_irrefl _)
    · exact absurd (h.pending_lt k₁ e h₁) (heq ▸ Nat.lt_irrefl _)
    · exact h.holder_unique k₁ k₂ e h₁ e' h₂ heq
  covered n hn := by
    rcases Nat.lt_succ_iff_lt_or_eq.mp hn with hn | rfl
    · rcases h.covered n hn with hd | ⟨k', e, he, rfl⟩
      · exact .inl hd
      · exact .inr ⟨k', e, mem_incur.mpr (.inr he), rfl⟩
    · exact .inr ⟨k, _, mem_incur.mpr (.inl ⟨rfl, rfl⟩), rfl⟩

theorem Sound.discharge (h : g.Sound) (k : κ) : (g.discharge k).Sound := by
  rcases hp : g.pending k with _ | ⟨e, rest⟩
  · have hs : g.discharge k = g := by
      rw [Obligations.discharge, hp]
      show (⟨Function.update g.pending k [], g.discharged, g.next⟩ : Obligations κ α) = g
      rw [← hp, update_eq_self]
    rw [hs]
    exact h
  · have heq : g.discharge k = ⟨Function.update g.pending k rest, e.1 :: g.discharged, g.next⟩ := by
      rw [Obligations.discharge, hp]
      rfl
    have he : e ∈ g.pending k := hp ▸ mem_cons_self
    have hnd := h.pending_nodup k
    rw [hp, map_cons, nodup_cons] at hnd
    -- The discharged number is not pending any more, with its holder or with another.
    have hm : ∀ {k' e'}, e' ∈ Function.update g.pending k rest k' ↔
        e' ∈ g.pending k' ∧ e'.1 ≠ e.1 := by
      intro k' e'
      by_cases hk : k' = k
      · rw [hk, update_self, hp, mem_cons]
        refine ⟨fun he' => ⟨.inr he', fun hne => hnd.1 (hne ▸ mem_map_of_mem he')⟩, ?_⟩
        rintro ⟨rfl | he', hne⟩
        · exact absurd rfl hne
        · exact he'
      · rw [update_of_ne hk]
        exact (and_iff_left_of_imp fun he' hne => hk (h.holder_unique k' k e' he' e he hne)).symm
    rw [heq]
    refine ⟨?_, ?_, ?_, ?_, ?_, ?_, ?_⟩
    · exact nodup_cons.mpr ⟨h.pending_open k e he, h.nodup⟩
    · intro n hn
      rcases mem_cons.mp hn with rfl | hn
      · exact h.pending_lt k e he
      · exact h.discharged_lt n hn
    · exact fun k' e' he' => h.pending_lt k' e' (hm.mp he').1
    · intro k' e' he' hn
      rcases mem_cons.mp hn with hn | hn
      · exact (hm.mp he').2 hn
      · exact h.pending_open k' e' (hm.mp he').1 hn
    · intro k'
      dsimp only
      by_cases hk : k' = k
      · subst hk
        rw [update_self]
        exact hnd.2
      · rw [update_of_ne hk]
        exact h.pending_nodup k'
    · exact fun k₁ k₂ e₁ h₁ e₂ h₂ =>
        h.holder_unique k₁ k₂ e₁ (hm.mp h₁).1 e₂ (hm.mp h₂).1
    · intro n hn
      rcases h.covered n hn with hd | ⟨k', e', he', rfl⟩
      · exact .inl (mem_cons_of_mem _ hd)
      · by_cases hs : e'.1 = e.1
        · exact .inl (hs ▸ mem_cons_self)
        · exact .inr ⟨k', e', hm.mpr ⟨he', hs⟩, rfl⟩

omit [DecidableEq κ] in
theorem Sound.count_discharged (h : g.Sound) (hno : ∀ k, g.pending k = []) {n : Nat}
    (hn : n < g.next) : g.discharged.count n = 1 := by
  rcases h.covered n hn with hd | ⟨k, e, he, -⟩
  · exact count_eq_one_of_mem h.nodup hd
  · rw [hno] at he
    cases he

end Obligations
