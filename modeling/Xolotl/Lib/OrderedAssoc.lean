import Mathlib

/-! Finite maps as association lists with strictly increasing keys. -/

namespace OrderedAssoc

open List

variable {K V : Type*} [LinearOrder K]

def Sorted (l : List (K × V)) : Prop := l.Pairwise fun a b => a.1 < b.1

def lookup : List (K × V) → K → Option V
  | [], _ => none
  | (k, v) :: l, key => if k = key then some v else lookup l key

/-- The old key stays where it is when its value is replaced. -/
def insert : List (K × V) → K → V → List (K × V)
  | [], key, value => [(key, value)]
  | (k, v) :: l, key, value =>
    if k < key then (k, v) :: insert l key value
    else if k = key then (k, value) :: l
    else (key, value) :: (k, v) :: l

def erase (l : List (K × V)) (key : K) : List (K × V) := l.filter fun entry => entry.1 ≠ key

def ofEntries (entries : List (K × V)) : List (K × V) :=
  entries.foldl (fun l entry => insert l entry.1 entry.2) []

/-! ## Splitting at a key -/

variable {a b l : List (K × V)} {key : K} {value : V}

theorem lookup_append_of_lt (h : ∀ entry ∈ a, entry.1 < key) :
    lookup (a ++ b) key = lookup b key := by
  induction a with
  | nil => rfl
  | cons entry a ih =>
    obtain ⟨he, ha⟩ := forall_mem_cons.mp h
    rw [cons_append, lookup, if_neg he.ne, ih ha]

theorem lookup_eq_none (h : ∀ entry ∈ l, entry.1 ≠ key) : lookup l key = none := by
  induction l with
  | nil => rfl
  | cons entry l ih =>
    obtain ⟨he, hl⟩ := forall_mem_cons.mp h
    rw [lookup, if_neg he, ih hl]

theorem lookup_append_of_gt (h : ∀ entry ∈ b, key < entry.1) :
    lookup (a ++ b) key = lookup a key := by
  induction a with
  | nil => exact lookup_eq_none fun entry hb => (h entry hb).ne'
  | cons entry a ih => rw [cons_append, lookup, lookup, ih]

theorem insert_append_of_lt (h : ∀ entry ∈ a, entry.1 < key) :
    insert (a ++ b) key value = a ++ insert b key value := by
  induction a with
  | nil => rfl
  | cons entry a ih =>
    obtain ⟨he, ha⟩ := forall_mem_cons.mp h
    rw [cons_append, insert, if_pos he, ih ha, cons_append]

theorem insert_of_lt (h : ∀ entry ∈ l, entry.1 < key) :
    insert l key value = l ++ [(key, value)] := by
  have ha : insert (l ++ []) key value = l ++ insert [] key value := insert_append_of_lt h
  rwa [append_nil] at ha

theorem insert_of_gt (h : ∀ entry ∈ l, key < entry.1) : insert l key value = (key, value) :: l := by
  cases l with
  | nil => rfl
  | cons entry l =>
    have he := h entry mem_cons_self
    rw [insert, if_neg he.not_gt, if_neg he.ne']

theorem insert_append_of_gt (h : ∀ entry ∈ b, key < entry.1) :
    insert (a ++ b) key value = insert a key value ++ b := by
  induction a with
  | nil => exact insert_of_gt h
  | cons entry a ih =>
    simp only [cons_append, insert, ih]
    split
    · rfl
    · split <;> rfl

theorem erase_append (a b : List (K × V)) (key : K) :
    erase (a ++ b) key = erase a key ++ erase b key := filter_append a b

theorem erase_eq_self (h : ∀ entry ∈ l, entry.1 ≠ key) : erase l key = l :=
  filter_eq_self.mpr fun entry he => decide_eq_true (h entry he)

theorem erase_of_lookup_eq_none (h : lookup l key = none) : erase l key = l := by
  induction l with
  | nil => rfl
  | cons entry l ih =>
    rw [lookup] at h
    split at h
    next => cases h
    next hne =>
      rw [erase, filter_cons_of_pos (by simpa using hne), ← erase, ih h]

theorem at_split (old : V) (ha : ∀ entry ∈ a, entry.1 < key) (hb : ∀ entry ∈ b, key < entry.1) :
    lookup (a ++ (key, old) :: b) key = some old ∧
      (∀ value, insert (a ++ (key, old) :: b) key value = a ++ (key, value) :: b) ∧
      erase (a ++ (key, old) :: b) key = a ++ b := by
  refine ⟨?_, fun value => ?_, ?_⟩
  · rw [lookup_append_of_lt ha, lookup, if_pos rfl]
  · rw [insert_append_of_lt ha, insert, if_neg (lt_irrefl key), if_pos rfl]
  · rw [← singleton_append, erase_append, erase_append,
      erase_eq_self fun entry h => (ha entry h).ne, erase_eq_self fun entry h => (hb entry h).ne']
    simp [erase]

theorem at_gap (ha : ∀ entry ∈ a, entry.1 < key) (hb : ∀ entry ∈ b, key < entry.1) :
    lookup (a ++ b) key = none ∧
      (∀ value, insert (a ++ b) key value = a ++ (key, value) :: b) ∧
      erase (a ++ b) key = a ++ b := by
  refine ⟨?_, fun value => ?_, ?_⟩
  · rw [lookup_append_of_lt ha]
    exact lookup_eq_none fun entry h => (hb entry h).ne'
  · rw [insert_append_of_lt ha, insert_of_gt hb]
  · rw [erase_append, erase_eq_self fun entry h => (ha entry h).ne,
      erase_eq_self fun entry h => (hb entry h).ne']

/-! ## Order -/

theorem sorted_nil : Sorted ([] : List (K × V)) := .nil

theorem sorted_append : Sorted (a ++ b) ↔
    Sorted a ∧ Sorted b ∧ ∀ x ∈ a, ∀ y ∈ b, x.1 < y.1 := pairwise_append

theorem sorted_cons {entry : K × V} : Sorted (entry :: l) ↔
    (∀ x ∈ l, entry.1 < x.1) ∧ Sorted l := pairwise_cons

theorem Sorted.split (h : Sorted l) (key : K) :
    ∃ a b : List (K × V), (∀ entry ∈ a, entry.1 < key) ∧ (∀ entry ∈ b, key < entry.1) ∧
      ((∃ value, l = a ++ (key, value) :: b) ∨ l = a ++ b) := by
  induction l with
  | nil => exact ⟨[], [], nofun, nofun, .inr rfl⟩
  | cons x l ih =>
    obtain ⟨hx, hl⟩ := sorted_cons.mp h
    rcases lt_trichotomy x.1 key with hlt | rfl | hgt
    · obtain ⟨a, b, ha, hb, ⟨value, rfl⟩ | rfl⟩ := ih hl
      · exact ⟨x :: a, b, forall_mem_cons.mpr ⟨hlt, ha⟩, hb, .inl ⟨value, rfl⟩⟩
      · exact ⟨x :: a, b, forall_mem_cons.mpr ⟨hlt, ha⟩, hb, .inr rfl⟩
    · exact ⟨[], l, nofun, hx, .inl ⟨x.2, rfl⟩⟩
    · refine ⟨[], x :: l, nofun, ?_, .inr rfl⟩
      exact forall_mem_cons.mpr ⟨hgt, fun y hy => hgt.trans (hx y hy)⟩

theorem fst_of_mem_insert {entry : K × V} (h : entry ∈ insert l key value) :
    entry.1 = key ∨ ∃ x ∈ l, x.1 = entry.1 := by
  induction l with
  | nil => exact .inl (congrArg Prod.fst (mem_singleton.mp h))
  | cons x l ih =>
    rw [insert] at h
    split at h
    next =>
      rcases mem_cons.mp h with rfl | h
      · exact .inr ⟨_, mem_cons_self, rfl⟩
      · exact (ih h).imp_right fun ⟨y, hy, heq⟩ => ⟨y, mem_cons_of_mem _ hy, heq⟩
    next =>
      split at h
      next =>
        rcases mem_cons.mp h with rfl | h
        · exact .inr ⟨x, mem_cons_self, rfl⟩
        · exact .inr ⟨entry, mem_cons_of_mem _ h, rfl⟩
      next =>
        rcases mem_cons.mp h with rfl | h
        · exact .inl rfl
        · exact .inr ⟨entry, h, rfl⟩

theorem Sorted.insert (h : Sorted l) (key : K) (value : V) : Sorted (insert l key value) := by
  induction l with
  | nil => exact pairwise_singleton _ _
  | cons x l ih =>
    obtain ⟨hx, hl⟩ := sorted_cons.mp h
    rw [OrderedAssoc.insert]
    split
    next hlt =>
      refine sorted_cons.mpr ⟨fun y hy => ?_, ih hl⟩
      rcases fst_of_mem_insert hy with heq | ⟨z, hz, heq⟩
      · exact heq ▸ hlt
      · exact heq ▸ hx z hz
    next hn =>
      split
      next => exact sorted_cons.mpr ⟨hx, hl⟩
      next hne =>
        have hlt : key < x.1 := lt_of_le_of_ne (not_lt.mp hn) (Ne.symm hne)
        refine sorted_cons.mpr ⟨fun y hy => ?_, h⟩
        rcases mem_cons.mp hy with rfl | hy
        · exact hlt
        · exact hlt.trans (hx y hy)

theorem Sorted.erase (h : Sorted l) (key : K) : Sorted (erase l key) := List.Pairwise.filter _ h

theorem sorted_ofEntries (entries : List (K × V)) : Sorted (ofEntries entries) := by
  suffices h : ∀ l : List (K × V), Sorted l →
      Sorted (entries.foldl (fun l entry => OrderedAssoc.insert l entry.1 entry.2) l) from
    h [] sorted_nil
  induction entries with
  | nil => exact fun _ h => h
  | cons entry entries ih => exact fun l h => ih _ (h.insert _ _)

/-! ## As a map -/

theorem lookup_insert (h : Sorted l) (key : K) (value : V) (other : K) :
    lookup (insert l key value) other = if key = other then some value else lookup l other := by
  induction l with
  | nil => rfl
  | cons x l ih =>
    obtain ⟨hx, hl⟩ := sorted_cons.mp h
    rw [insert]
    split
    next hlt =>
      rw [lookup, lookup, ih hl]
      split
      next heq => rw [if_neg (heq ▸ hlt.ne')]
      next => rfl
    next =>
      split
      next heq =>
        rw [lookup, lookup, heq]
        split <;> rfl
      next => rw [lookup]

theorem lookup_erase (l : List (K × V)) (key other : K) :
    lookup (erase l key) other = if key = other then none else lookup l other := by
  induction l with
  | nil => exact (ite_self none).symm
  | cons x l ih =>
    rw [erase, filter_cons, lookup]
    by_cases heq : x.1 = key
    · rw [if_neg (by simpa using heq), ← erase, ih, heq]
      split <;> rfl
    · rw [if_pos (by simpa using heq), lookup, ← erase, ih]
      split
      next ho => rw [if_neg (ho ▸ Ne.symm heq)]
      next => rfl

end OrderedAssoc
