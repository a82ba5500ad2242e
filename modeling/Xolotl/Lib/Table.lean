import Mathlib

/-! Finite maps with distinct keys in no particular order. -/

abbrev Table (K V : Type*) := AList fun _ : K => V

namespace Table

open List

variable {K V : Type*} [DecidableEq K] (t : Table K V) (f : V → Nat) (key : K) (value : V)

def get : Option V := AList.lookup key t

def contains : Bool := (t.get key).isSome

def set : Table K V := AList.insert key value t

def remove : Table K V := AList.erase key t

def size : Nat := t.entries.length

def rows : List (K × V) := t.entries.map fun row => (row.1, row.2)

theorem get_set (key other : K) (value : V) :
    (t.set key value).get other = if other = key then some value else t.get other := by
  split
  next h =>
    subst h
    exact AList.lookup_insert t
  next h => exact AList.lookup_insert_ne h

@[simp] theorem get_set_self : (t.set key value).get key = some value := by
  rw [get_set, if_pos rfl]

variable {key : K} {t : Table K V} {value old : V} {x : Option V} {other : K} {y : Option V}

theorem get_set_of_ne (t : Table K V) (value : V) (h : other ≠ key) :
    (t.set key value).get other = t.get other := by
  rw [get_set, if_neg h]

theorem get_remove (t : Table K V) (key other : K) :
    (t.remove key).get other = if other = key then none else t.get other := by
  split
  next h =>
    subst h
    exact AList.lookup_erase other t
  next h => exact AList.lookup_erase_ne h

theorem mem_rows : (key, value) ∈ t.rows ↔ t.get key = some value := by
  have he : (key, value) ∈ t.rows ↔ (⟨key, value⟩ : Sigma fun _ : K => V) ∈ t.entries := by
    rw [rows, mem_map]
    constructor
    · rintro ⟨⟨k, v⟩, hm, heq⟩
      cases heq
      exact hm
    · exact fun hm => ⟨_, hm, rfl⟩
  rw [he, ← AList.mem_lookup_iff]
  rfl

theorem size_set_new (value : V) (h : t.get key = none) : (t.set key value).size = t.size + 1 := by
  rw [size, set, AList.entries_insert_of_notMem (AList.lookup_eq_none.mp h)]
  rfl

theorem size_remove : (t.remove key).size + (if t.contains key then 1 else 0) = t.size := by
  have hk : (t.remove key).size = (t.keys.erase key).length := by
    rw [← AList.keys_erase key t, AList.keys, List.keys, length_map]
    rfl
  have hs : t.size = t.keys.length := by
    rw [size, AList.keys, List.keys, length_map]
  have hc : t.contains key = true ↔ key ∈ t.keys := AList.lookup_isSome.trans AList.mem_keys
  rw [hk, hs]
  by_cases hm : key ∈ t.keys
  · rw [if_pos (hc.mpr hm), length_erase_of_mem hm]
    have hpos := length_pos_of_mem hm
    omega
  · rw [if_neg (fun h => hm (hc.mp h)), erase_of_not_mem hm]
    rfl

/-! ## Sums over the rows -/

def total (t : Table K V) : Nat := (t.entries.map fun row => f row.2).sum

theorem total_set_new (value : V) (h : t.get key = none) :
    (t.set key value).total f = t.total f + f value := by
  rw [total, set, AList.entries_insert_of_notMem (AList.lookup_eq_none.mp h), Nat.add_comm]
  rfl

theorem total_remove (h : t.get key = some old) : (t.remove key).total f + f old = t.total f := by
  have hm : key ∈ t.keys := AList.mem_keys.mpr (AList.lookup_isSome.mp (by
    rw [show AList.lookup key t = some old from h]
    rfl))
  obtain ⟨found, front, back, -, he, her⟩ := exists_of_kerase hm
  -- the erased entry is the one that the lookup finds
  have hf : found = old := by
    have hin : (⟨key, found⟩ : Sigma fun _ : K => V) ∈ t.entries := by
      rw [he]
      simp
    have hl : t.get key = some found := AList.mem_lookup_iff.mpr hin
    rw [h] at hl
    exact (Option.some.inj hl).symm
  have hr : (t.remove key).entries = front ++ back := her
  rw [total, total, hr, he, hf]
  simp only [map_cons, map_append, sum_cons, sum_append]
  omega

theorem total_set (value : V)
    (h : t.get key = some old) : (t.set key value).total f + f old = t.total f + f value := by
  have hs : (t.set key value).total f = f value + (t.remove key).total f := by
    rfl
  rw [← total_remove f h]
  omega

theorem size_set (value : V) (h : t.get key = some old) : (t.set key value).size = t.size := by
  have hr : (t.remove key).size + (if t.contains key then 1 else 0) = t.size := size_remove
  rw [contains, h] at hr
  rw [← hr]
  rfl

/-! ## Rows over time -/

/-- What becomes of one row: it stays absent, appears or moves; it never disappears. -/
inductive Turns (New : V → Prop) (Moves : V → V → Prop) : Option V → Option V → Prop
  | absent : Turns New Moves none none
  | appears {value : V} (h : New value) : Turns New Moves none (some value)
  | moves {value value' : V} (h : Moves value value') : Turns New Moves (some value) (some value')

variable {New : V → Prop} {Moves : V → V → Prop}

theorem Turns.same (hrefl : ∀ value, Moves value value) (x : Option V) : Turns New Moves x x := by
  cases x with
  | none => exact .absent
  | some value => exact .moves (hrefl value)

theorem Turns.of_some (h : Turns New Moves x y) (hx : x = some value) :
    ∃ value', y = some value' ∧ Moves value value' := by
  cases h with
  | absent | appears => cases hx
  | moves h =>
    cases hx
    exact ⟨_, rfl, h⟩

theorem Turns.origin (h : Turns New Moves x y) (hy : y = some value) :
    (x = none ∧ New value) ∨ ∃ old, x = some old ∧ Moves old value := by
  cases h with
  | absent => cases hy
  | appears h =>
    cases hy
    exact .inl ⟨rfl, h⟩
  | moves h =>
    cases hy
    exact .inr ⟨_, rfl, h⟩

theorem Turns.set (hrefl : ∀ value, Moves value value)
    (h : key = other → Turns New Moves (t.get key) (some value)) :
    Turns New Moves (t.get key) ((t.set other value).get key) := by
  by_cases hs : key = other
  · subst hs
    rw [get_set_self]
    exact h rfl
  · rw [get_set_of_ne _ _ hs]
    exact .same hrefl _

theorem Turns.mono {New' : V → Prop} {Moves' : V → V → Prop}
    (h : Turns New Moves x y) (hn : ∀ value, New value → New' value)
    (hm : ∀ value value', Moves value value' → Moves' value value') : Turns New' Moves' x y := by
  cases h with
  | absent => exact .absent
  | appears h => exact .appears (hn _ h)
  | moves h => exact .moves (hm _ _ h)

end Table
