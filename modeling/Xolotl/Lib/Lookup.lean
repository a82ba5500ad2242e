import Mathlib

/-! Finite maps to one type, seen through their lookups: every operation is described
by what it does to each key. -/

namespace Finmap

variable {α V : Type*} [DecidableEq α] (s : Finmap fun _ : α => V)

theorem lookup_insert_eq (a k : α) (v : V) :
    (s.insert a v).lookup k = if k = a then some v else s.lookup k := by
  by_cases hk : k = a
  · subst hk
    rw [if_pos rfl, lookup_insert]
  · rw [if_neg hk, lookup_insert_of_ne s hk]

theorem lookup_erase_eq (a k : α) : (s.erase a).lookup k = if k = a then none else s.lookup k := by
  by_cases hk : k = a
  · subst hk
    rw [if_pos rfl, lookup_erase]
  · rw [if_neg hk, lookup_erase_ne hk]

def modify (a : α) (f : V → V) (s : Finmap fun _ : α => V) : Finmap fun _ : α => V :=
  match s.lookup a with
  | none => s
  | some v => s.insert a (f v)

theorem lookup_modify (a k : α) (f : V → V) :
    (s.modify a f).lookup k = if k = a then (s.lookup a).map f else s.lookup k := by
  unfold modify
  cases ha : s.lookup a with
  | none =>
    by_cases hk : k = a
    · subst hk
      rw [if_pos rfl, ha]
      rfl
    · rw [if_neg hk]
  | some v => exact lookup_insert_eq s a k (f v)

theorem mem_keys_iff (a : α) : a ∈ s.keys ↔ ∃ v, s.lookup a = some v := mem_keys.trans mem_iff

theorem keys_congr {s t : Finmap fun _ : α => V}
    (h : ∀ a, (s.lookup a).isSome = (t.lookup a).isSome) : s.keys = t.keys := by
  ext a
  rw [mem_keys, mem_keys, ← lookup_isSome, ← lookup_isSome, h]

end Finmap
