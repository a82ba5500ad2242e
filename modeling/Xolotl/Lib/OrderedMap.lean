import Xolotl.Lib.OrderedAssoc

/-! Finite maps with ordered keys, as association lists that carry the order of their keys. -/

structure OrderedMap (K V : Type*) [LinearOrder K] where
  entries : List (K × V)
  sorted : OrderedAssoc.Sorted entries

namespace OrderedMap

open List OrderedAssoc

variable {K V : Type*} [LinearOrder K]

def empty : OrderedMap K V := ⟨[], sorted_nil⟩

variable (m : OrderedMap K V)

def get (key : K) : Option V := OrderedAssoc.lookup m.entries key

def contains (key : K) : Bool := (m.get key).isSome

def insert (m : OrderedMap K V) (key : K) (value : V) : OrderedMap K V :=
  ⟨OrderedAssoc.insert m.entries key value, m.sorted.insert key value⟩

def erase (m : OrderedMap K V) (key : K) : OrderedMap K V :=
  ⟨OrderedAssoc.erase m.entries key, m.sorted.erase key⟩

def size : Nat := m.entries.length

def keys : List K := m.entries.map Prod.fst

def keysFrom (start : K) : List K := m.keys.filter fun key => start ≤ key

def eraseAll (keys : List K) : OrderedMap K V := keys.foldl erase m

def insertAll (entries : List (K × V)) : OrderedMap K V :=
  entries.foldl (fun m entry => m.insert entry.1 entry.2) m

variable {key : K} {value : V}

theorem entries_injective {a b : OrderedMap K V} (h : a.entries = b.entries) : a = b := by
  cases b
  cases h
  rfl

instance [DecidableEq V] : DecidableEq (OrderedMap K V) := fun a b =>
  decidable_of_iff (a.entries = b.entries) ⟨entries_injective, fun h => h ▸ rfl⟩

/-! ## Lookup -/

theorem get_insert (key : K) (value : V) (other : K) :
    (m.insert key value).get other = if key = other then some value else m.get other :=
  lookup_insert m.sorted key value other

theorem get_erase (key other : K) :
    (m.erase key).get other = if key = other then none else m.get other :=
  lookup_erase m.entries key other

@[simp] theorem get_insert_self (key : K) (value : V) :
    (m.insert key value).get key = some value := by
  rw [get_insert, if_pos rfl]

variable {other key : K}

theorem get_insert_of_ne (value : V) (h : key ≠ other) :
    (m.insert key value).get other = m.get other := by
  rw [get_insert, if_neg h]

@[simp] theorem get_erase_self (key : K) : (m.erase key).get key = none := by
  rw [get_erase, if_pos rfl]

theorem get_erase_of_ne (h : key ≠ other) :
    (m.erase key).get other = m.get other := by
  rw [get_erase, if_neg h]

variable {m}

theorem get_of_get_erase (h : (m.erase key).get other = some value) :
    key ≠ other ∧ m.get other = some value := by
  rw [get_erase] at h
  split at h
  · cases h
  · exact ⟨‹_›, h⟩

theorem get_eraseAll (m : OrderedMap K V) (keys : List K) (other : K) :
    (m.eraseAll keys).get other = if other ∈ keys then none else m.get other := by
  induction keys generalizing m with
  | nil => rfl
  | cons key keys ih =>
    have hs : (m.eraseAll (key :: keys)) = (m.erase key).eraseAll keys := rfl
    rw [hs, ih, get_erase]
    by_cases hm : other ∈ keys
    · rw [if_pos hm, if_pos (mem_cons_of_mem _ hm)]
    · by_cases heq : key = other
      · rw [if_neg hm, if_pos heq, if_pos (heq ▸ mem_cons_self)]
      · rw [if_neg hm, if_neg heq, if_neg]
        intro hc
        rcases mem_cons.mp hc with h | h
        · exact heq h.symm
        · exact hm h

theorem get_insertAll_const (m : OrderedMap K V) (value : V) (entries : List (K × V))
    (h : ∀ entry ∈ entries, entry.2 = value) (other : K) :
    (m.insertAll entries).get other =
      if other ∈ entries.map Prod.fst then some value else m.get other := by
  induction entries generalizing m with
  | nil => rfl
  | cons entry entries ih =>
    obtain ⟨hen, he⟩ := forall_mem_cons.mp h
    have hs : m.insertAll (entry :: entries) = (m.insert entry.1 entry.2).insertAll entries := rfl
    rw [hs, ih _ he, get_insert, map_cons]
    by_cases hm : other ∈ entries.map Prod.fst
    · rw [if_pos hm, if_pos (mem_cons_of_mem _ hm)]
    · by_cases heq : entry.1 = other
      · rw [if_neg hm, if_pos heq, if_pos (heq ▸ mem_cons_self), hen]
      · rw [if_neg hm, if_neg heq, if_neg]
        intro hc
        rcases mem_cons.mp hc with h | h
        · exact heq h.symm
        · exact hm h

/-! ## Entries -/

theorem mem_entries : (key, value) ∈ m.entries ↔ m.get key = some value := by
  obtain ⟨a, b, ha, hb, ⟨old, hm⟩ | hm⟩ := m.sorted.split key
  · have hs := at_split old ha hb
    rw [get, hm, hs.1, mem_append, mem_cons]
    constructor
    · rintro (h | h | h)
      · exact absurd (ha _ h) (lt_irrefl key)
      · rw [Prod.mk.injEq] at h
        rw [h.2]
      · exact absurd (hb _ h) (lt_irrefl key)
    · intro h
      rw [Option.some.inj h]
      exact .inr (.inl rfl)
  · rw [get, hm, (at_gap ha hb).1, mem_append]
    constructor
    · rintro (h | h)
      · exact absurd (ha _ h) (lt_irrefl key)
      · exact absurd (hb _ h) (lt_irrefl key)
    · exact nofun

theorem mem_keys : key ∈ m.keys ↔ ∃ value, m.get key = some value := by
  rw [keys, mem_map]
  constructor
  · rintro ⟨entry, he, rfl⟩
    exact ⟨entry.2, mem_entries.mp he⟩
  · rintro ⟨value, h⟩
    exact ⟨(key, value), mem_entries.mpr h, rfl⟩

theorem mem_keysFrom {start : K} :
    key ∈ m.keysFrom start ↔ (∃ value, m.get key = some value) ∧ start ≤ key := by
  rw [keysFrom, mem_filter, mem_keys, decide_eq_true_iff]

variable (m)

theorem sorted_keysFrom (start : K) : (m.keysFrom start).Pairwise (· < ·) :=
  (pairwise_map.mpr m.sorted).filter _

/-! ## Size -/

theorem entries_insert (key : K) (value : V) :
    (m.insert key value).entries = OrderedAssoc.insert m.entries key value := rfl

theorem size_insert (key : K) (value : V) :
    (m.insert key value).size = if m.contains key then m.size else m.size + 1 := by
  obtain ⟨a, b, ha, hb, ⟨old, hm⟩ | hm⟩ := m.sorted.split key
  · have hs := at_split old ha hb
    rw [size, size, contains, get, entries_insert, hm, hs.1, hs.2.1]
    simp
  · have hg := at_gap ha hb
    rw [size, size, contains, get, entries_insert, hm, hg.1, hg.2.1]
    simp
    omega

theorem size_erase_le (key : K) : (m.erase key).size ≤ m.size :=
  length_filter_le _ _

end OrderedMap
