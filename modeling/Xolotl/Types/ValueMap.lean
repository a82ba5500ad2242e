import Xolotl.Lib.OrderedAssoc
import Xolotl.Types.Assembly

/-! Persistent maps in key order over the balanced index, and their sequential
builder. -/

namespace Xolotl.Types

variable {K V : Type*} [LinearOrder K]

/-! ## Search in a leaf -/

inductive Search
  | found (index : Nat)
  | missing (index : Nat)

/-- `slice::binary_search_by` on entries in strict key order. -/
def binarySearch (members : List (K × V)) (key : K) : Search :=
  let index := (members.takeWhile fun entry => entry.1 < key).length
  match members[index]? with
  | some entry => if entry.1 = key then .found index else .missing index
  | none => .missing index

open OrderedAssoc

theorem binarySearch_append {before rest : List (K × V)} {key : K}
    (hb : ∀ entry ∈ before, entry.1 < key) (hr : ∀ entry ∈ rest, key ≤ entry.1) :
    binarySearch (before ++ rest) key =
      match rest.head? with
      | some entry => if entry.1 = key then .found before.length else .missing before.length
      | none => .missing before.length := by
  have hp : (before ++ rest).takeWhile (fun entry => entry.1 < key) = before := by
    rw [List.takeWhile_append_of_pos fun entry he => decide_eq_true (hb entry he)]
    cases rest with
    | nil => exact List.append_nil before
    | cons x rest =>
      have hx : ¬ x.1 < key := not_lt.mpr (hr x List.mem_cons_self)
      rw [List.takeWhile_cons_of_neg (by simpa using hx), List.append_nil]
  have hat : (before ++ rest)[before.length]? = rest.head? := by
    rw [List.getElem?_append_right (Nat.le_refl _), Nat.sub_self, List.head?_eq_getElem?]
  simp only [binarySearch, hp, hat]

variable {before after : List (K × V)} {key : K}

theorem binarySearch_found {value : V} (hb : ∀ entry ∈ before, entry.1 < key)
    (ha : ∀ entry ∈ after, key < entry.1) :
    binarySearch (before ++ (key, value) :: after) key = .found before.length := by
  rw [binarySearch_append hb]
  · exact if_pos rfl
  · exact List.forall_mem_cons.mpr ⟨le_rfl, fun entry he => (ha entry he).le⟩

theorem binarySearch_missing (hb : ∀ entry ∈ before, entry.1 < key)
    (ha : ∀ entry ∈ after, key < entry.1) :
    binarySearch (before ++ after) key = .missing before.length := by
  rw [binarySearch_append hb fun entry he => (ha entry he).le]
  cases after with
  | nil => rfl
  | cons x after => exact if_neg (ha x List.mem_cons_self).ne'

variable (before after : List (K × V))

omit [LinearOrder K] in
theorem insertIdx_length (entry : K × V) :
    (before ++ after).insertIdx before.length entry = before ++ entry :: after := by
  induction before with
  | nil => rfl
  | cons x before ih => simp [ih]

omit [LinearOrder K] in
theorem modify_length (entry : K × V) (f : K × V → K × V) :
    (before ++ entry :: after).modify before.length f = before ++ f entry :: after := by
  induction before with
  | nil => rfl
  | cons x before ih => simp [ih]

omit [LinearOrder K] in
theorem getElem?_length (entry : K × V) :
    (before ++ entry :: after)[before.length]? = some entry := by
  rw [List.getElem?_append_right (Nat.le_refl _), Nat.sub_self]
  rfl

/-! ## Updates of the index -/

variable [Inhabited K]

namespace MapIndex

open Index

variable (members : List (K × V))

def summarize : K := (members.getLast?.map Prod.fst).getD default

def leaf : Index (K × V) K := .ofMembers summarize members

def get : Index (K × V) K → K → Option V
  | .leaf _ _ _ members, key =>
    match binarySearch members key with
    | .found index => members[index]?.map Prod.snd
    | .missing _ => none
  | .branch _ _ _ left right, key => if key ≤ left.summary then get left key else get right key

def grownLeaf : Index (K × V) K :=
  if members.length ≤ leafCapacity then leaf members
  else
    (leaf (members.take (members.length / 2))).join (leaf (members.drop (members.length / 2)))

def insert : Index (K × V) K → K → V → Index (K × V) K × Option V
  | .leaf _ _ _ members, key, value =>
    match binarySearch members key with
    | .found index =>
      (leaf (members.modify index fun entry => (entry.1, value)), members[index]?.map Prod.snd)
    | .missing index => (grownLeaf (members.insertIdx index (key, value)), none)
  | .branch _ _ _ left right, key, value =>
    if key ≤ left.summary then
      let (left, previous) := insert left key value
      (left.balance right, previous)
    else
      let (right, previous) := insert right key value
      (left.balance right, previous)

def remove : Index (K × V) K → K → Option (Index (K × V) K) × Option V
  | .leaf len height summary members, key =>
    match binarySearch members key with
    | .missing _ => (some (.leaf len height summary members), none)
    | .found index =>
      let rest := members.eraseIdx index
      (if rest = [] then none else some (leaf rest), members[index]?.map Prod.snd)
  | .branch len height summary left right, key =>
    if key ≤ left.summary then
      match remove left key with
      | (_, none) => (some (.branch len height summary left right), none)
      | (some left, some previous) => (some (left.balance right), some previous)
      | (none, some previous) => (some right, some previous)
    else
      match remove right key with
      | (_, none) => (some (.branch len height summary left right), none)
      | (some right, some previous) => (some (left.balance right), some previous)
      | (none, some previous) => (some left, some previous)

abbrev Balanced (t : Index (K × V) K) : Prop := t.Balanced summarize

omit [LinearOrder K] in
theorem summarize_append (a b : List (K × V)) (hb : b ≠ []) : summarize (a ++ b) = summarize b := by
  rw [summarize, summarize, List.getLast?_append_of_ne_nil a hb]

variable {t : Index (K × V) K}

omit [LinearOrder K] in
theorem exists_last (h : Balanced t) :
    ∃ front value, t.members = front ++ [(t.summary, value)] := by
  obtain ⟨front, last, hlast⟩ := (List.eq_nil_or_concat' t.members).resolve_left h.members_ne_nil
  refine ⟨front, last.2, ?_⟩
  have hk : t.summary = last.1 := by
    rw [h.summary_eq summarize_append, hlast, summarize, List.getLast?_concat]
    rfl
  rw [hlast, hk]

theorem le_summary (h : Balanced t) (hs : Sorted t.members) :
    ∀ entry ∈ t.members, entry.1 ≤ t.summary := by
  obtain ⟨front, value, hlast⟩ := exists_last h
  rw [hlast] at hs
  intro entry he
  rw [hlast] at he
  rcases List.mem_append.mp he with hf | hm
  · exact ((sorted_append.mp hs).2.2 entry hf _ List.mem_cons_self).le
  · rw [List.mem_singleton.mp hm]

section Routing

variable {left right : Index (K × V) K}

theorem gt_of_le_summary (hl : Balanced left) (hs : Sorted (left.members ++ right.members))
    (hk : key ≤ left.summary) : ∀ entry ∈ right.members, key < entry.1 := by
  obtain ⟨front, value, hlast⟩ := exists_last hl
  intro entry he
  refine hk.trans_lt ((sorted_append.mp hs).2.2 (left.summary, value) ?_ entry he)
  rw [hlast]
  exact List.mem_append_right _ List.mem_cons_self

theorem lt_of_not_le_summary (hl : Balanced left) (hs : Sorted (left.members ++ right.members))
    (hk : ¬ key ≤ left.summary) : ∀ entry ∈ left.members, entry.1 < key :=
  fun entry he =>
    (le_summary hl (sorted_append.mp hs).1 entry he).trans_lt (not_le.mp hk)

end Routing

theorem get_eq (h : Balanced t) (hs : Sorted t.members) (key : K) :
    get t key = lookup t.members key := by
  induction h with
  | @leaf ms _ _ =>
    obtain ⟨before, after, hb, ha, ⟨value, rfl⟩ | rfl⟩ := Sorted.split hs key
    · simp only [ofMembers, get, members, binarySearch_found hb ha]
      rw [getElem?_length, lookup_append_of_lt hb, lookup, if_pos rfl]
      rfl
    · simp only [ofMembers, get, members, binarySearch_missing hb ha]
      rw [lookup_append_of_lt hb, lookup_eq_none fun entry he => (ha entry he).ne']
  | @node left right hl hr _ _ ihl ihr =>
    rw [members_node] at ⊢
    change (if key ≤ left.summary then get left key else get right key) = _
    obtain ⟨hsl, hsr, -⟩ := sorted_append.mp hs
    split
    next hle => rw [ihl hsl, lookup_append_of_gt (gt_of_le_summary hl hs hle)]
    next hgt => rw [ihr hsr, lookup_append_of_lt (lt_of_not_le_summary hl hs hgt)]

omit [LinearOrder K] in
theorem grownLeaf_spec (ms : List (K × V)) (hpos : 0 < ms.length)
    (hc : ms.length ≤ leafCapacity + 1) :
    Balanced (grownLeaf ms) ∧ (grownLeaf ms).Rises 0 ∧ (grownLeaf ms).members = ms := by
  unfold grownLeaf
  split
  next hf => exact ⟨.leaf hpos hf, ⟨Nat.le_refl 0, Nat.zero_le 1⟩, rfl⟩
  next ho =>
    have ht : Balanced (leaf (ms.take (ms.length / 2))) := by
      refine .leaf ?_ ?_ <;> rw [List.length_take] <;> unfold leafCapacity at * <;> omega
    have hd : Balanced (leaf (ms.drop (ms.length / 2))) := by
      refine .leaf ?_ ?_ <;> rw [List.length_drop] <;> unfold leafCapacity at * <;> omega
    obtain ⟨hb, hr⟩ := join_spec ht hd
    refine ⟨hb, hr, ?_⟩
    rw [members_join]
    exact List.take_append_drop _ _

theorem insert_leaf_spec {ms : List (K × V)} (hc : ms.length ≤ leafCapacity) (hs : Sorted ms)
    (key : K) (value : V) :
    Balanced (insert (leaf ms) key value).1 ∧ (insert (leaf ms) key value).1.Rises 0 ∧
      (insert (leaf ms) key value).1.members = OrderedAssoc.insert ms key value ∧
      (insert (leaf ms) key value).2 = lookup ms key := by
  obtain ⟨before, after, hb, ha, ⟨old, rfl⟩ | rfl⟩ := Sorted.split hs key
  · obtain ⟨hl, hi, -⟩ := at_split old hb ha
    have heq : insert (leaf (before ++ (key, old) :: after)) key value =
        (leaf (before ++ (key, value) :: after), some old) := by
      simp only [leaf, ofMembers, insert, binarySearch_found hb ha, modify_length,
        getElem?_length, Option.map_some]
    rw [heq, hl, hi]
    refine ⟨.leaf ?_ ?_, ⟨Nat.le_refl 0, Nat.zero_le 1⟩, rfl, rfl⟩
    · simp
    · simpa using hc
  · obtain ⟨hl, hi, -⟩ := at_gap hb ha
    have heq : insert (leaf (before ++ after)) key value =
        (grownLeaf (before ++ (key, value) :: after), none) := by
      simp only [leaf, ofMembers, insert, binarySearch_missing hb ha, insertIdx_length]
    have hle : (before ++ (key, value) :: after).length = (before ++ after).length + 1 := by
      simp [Nat.add_assoc]
    obtain ⟨hba, hr, hm⟩ := grownLeaf_spec (before ++ (key, value) :: after)
      (hle ▸ Nat.succ_pos _) (hle ▸ Nat.succ_le_succ hc)
    rw [heq, hl, hi]
    exact ⟨hba, hr, hm, rfl⟩

theorem insert_spec (h : Balanced t) (hs : Sorted t.members) (key : K) (value : V) :
    Balanced (insert t key value).1 ∧ (insert t key value).1.Rises t.height ∧
      (insert t key value).1.members = OrderedAssoc.insert t.members key value ∧
      (insert t key value).2 = lookup t.members key := by
  induction h with
  | leaf _ hc => exact insert_leaf_spec hc hs key value
  | @node left right hl hr h₁ h₂ ihl ihr =>
    obtain ⟨hsl, hsr, -⟩ := sorted_append.mp hs
    rw [members_node]
    simp only [Index.node, insert]
    rw [← Index.node]
    split
    next hle =>
      obtain ⟨hp, hri, hm, hv⟩ := ihl hsl
      have hrt := gt_of_le_summary hl hs hle
      simp only [Rises] at hri
      obtain ⟨hb, hri', he⟩ := balance_spec hp hr (by omega) (by omega)
      refine ⟨hb, ?_, ?_, ?_⟩
      · simp only [Rises, height_node] at hri' ⊢
        omega
      · rw [members_balance, hm, insert_append_of_gt hrt]
      · rw [hv, lookup_append_of_gt hrt]
    next hgt =>
      obtain ⟨hp, hri, hm, hv⟩ := ihr hsr
      have hlt := lt_of_not_le_summary hl hs hgt
      simp only [Rises] at hri
      obtain ⟨hb, hri', he⟩ := balance_spec hl hp (by omega) (by omega)
      refine ⟨hb, ?_, ?_, ?_⟩
      · simp only [Rises, height_node] at hri' ⊢
        omega
      · rw [members_balance, hm, insert_append_of_lt hlt]
      · rw [hv, lookup_append_of_lt hlt]

/-- The rest of a removal: balanced and at most one lower, and gone only with a leaf. -/
structure Falls (t : Index (K × V) K) (rest : Option (Index (K × V) K)) : Prop where
  balanced : ∀ u ∈ rest, Balanced u
  height : ∀ u ∈ rest, u.height ≤ t.height ∧ t.height ≤ u.height + 1
  leaf : rest = none → t.height = 0

omit [LinearOrder K] in
theorem Falls.of_some {u : Index (K × V) K} (h : Balanced u) (hle : u.height ≤ t.height)
    (hge : t.height ≤ u.height + 1) : Falls t (some u) :=
  ⟨fun _ hu => Option.some.inj hu ▸ h, fun _ hu => Option.some.inj hu ▸ ⟨hle, hge⟩, nofun⟩

omit [LinearOrder K] in
theorem Falls.balance {left right l r : Index (K × V) K} (hl : Balanced l) (hr : Balanced r)
    (h₁ : left.height ≤ right.height + 1) (h₂ : right.height ≤ left.height + 1)
    (h : (l.height ≤ left.height ∧ left.height ≤ l.height + 1) ∧ r = right ∨
      (r.height ≤ right.height ∧ right.height ≤ r.height + 1) ∧ l = left) :
    Falls (.node left right) (some (l.balance r)) := by
  rcases h with ⟨h, rfl⟩ | ⟨h, rfl⟩
  all_goals
    obtain ⟨hb, hri, he⟩ := balance_spec hl hr (by omega) (by omega)
    simp only [Rises] at hri
    refine .of_some hb ?_ ?_ <;> rw [height_node] <;> omega

theorem remove_leaf_spec {ms : List (K × V)} (hpos : 0 < ms.length)
    (hc : ms.length ≤ leafCapacity) (hs : Sorted ms) (key : K) :
    Falls (leaf ms) (remove (leaf ms) key).1 ∧
      rootMembers (remove (leaf ms) key).1 = erase ms key ∧
      (remove (leaf ms) key).2 = lookup ms key := by
  obtain ⟨before, after, hb, ha, ⟨old, rfl⟩ | rfl⟩ := Sorted.split hs key
  · obtain ⟨hl, -, he⟩ := at_split old hb ha
    have hd : (before ++ (key, old) :: after).eraseIdx before.length = before ++ after := by
      rw [List.eraseIdx_append_of_length_le (Nat.le_refl _), Nat.sub_self]
      rfl
    have heq : remove (leaf (before ++ (key, old) :: after)) key =
        (if before ++ after = [] then none else some (leaf (before ++ after)), some old) := by
      simp only [leaf, ofMembers, remove, binarySearch_found hb ha, hd,
        getElem?_length, Option.map_some]
    rw [heq, hl, he]
    split
    next hnil => exact ⟨⟨nofun, nofun, fun _ => rfl⟩, hnil.symm, rfl⟩
    next hne =>
      have hle : (before ++ after).length ≤ leafCapacity := by
        simp only [List.length_append, List.length_cons] at hc ⊢
        omega
      exact ⟨.of_some (.leaf (List.length_pos_of_ne_nil hne) hle) (Nat.le_refl 0) (Nat.zero_le 1),
        rfl, rfl⟩
  · obtain ⟨hl, -, he⟩ := at_gap hb ha
    have heq : remove (leaf (before ++ after)) key = (some (leaf (before ++ after)), none) := by
      simp only [leaf, ofMembers, remove, binarySearch_missing hb ha]
    rw [heq, hl, he]
    exact ⟨.of_some (.leaf hpos hc) (Nat.le_refl 0) (Nat.zero_le 1), rfl, rfl⟩

theorem remove_spec (h : Balanced t) (hs : Sorted t.members) (key : K) :
    Falls t (remove t key).1 ∧ rootMembers (remove t key).1 = erase t.members key ∧
      (remove t key).2 = lookup t.members key := by
  induction h with
  | leaf hpos hc => exact remove_leaf_spec hpos hc hs key
  | @node left right hl hr h₁ h₂ ihl ihr =>
    obtain ⟨hsl, hsr, -⟩ := sorted_append.mp hs
    have hsa : Falls (.node left right) (some (.node left right)) :=
      .of_some (.node hl hr h₁ h₂) (Nat.le_refl _) (Nat.le_succ _)
    rw [members_node, erase_append]
    simp only [Index.node, remove]
    rw [← Index.node]
    split
    next hle =>
      have hri := gt_of_le_summary hl hs hle
      rw [lookup_append_of_gt hri, erase_eq_self fun entry he => (hri entry he).ne']
      obtain ⟨hf, hm, hv⟩ := ihl hsl
      generalize remove left key = removed at hf hm hv
      obtain ⟨rest, previous⟩ := removed
      cases previous with
      | none =>
        refine ⟨hsa, ?_, hv⟩
        rw [erase_of_lookup_eq_none hv.symm]
        rfl
      | some previous =>
        cases rest with
        | none =>
          have hzero := hf.leaf rfl
          refine ⟨.of_some hr ?_ ?_, ?_, hv⟩
          · rw [height_node]
            omega
          · rw [height_node]
            omega
          · rw [← hm]
            rfl
        | some rest =>
          refine ⟨.balance (hf.balanced rest rfl) hr h₁ h₂ (.inl ⟨hf.height rest rfl, rfl⟩), ?_, hv⟩
          rw [← hm]
          exact members_balance rest right
    next hgt =>
      have hlt := lt_of_not_le_summary hl hs hgt
      rw [lookup_append_of_lt hlt, erase_eq_self fun entry he => (hlt entry he).ne]
      obtain ⟨hf, hm, hv⟩ := ihr hsr
      generalize remove right key = removed at hf hm hv
      obtain ⟨rest, previous⟩ := removed
      cases previous with
      | none =>
        refine ⟨hsa, ?_, hv⟩
        rw [erase_of_lookup_eq_none hv.symm]
        rfl
      | some previous =>
        cases rest with
        | none =>
          have hzero := hf.leaf rfl
          refine ⟨.of_some hl ?_ ?_, ?_, hv⟩
          · rw [height_node]
            omega
          · rw [height_node]
            omega
          · rw [← hm]
            exact (List.append_nil _).symm
        | some rest =>
          refine ⟨.balance hl (hf.balanced rest rfl) h₁ h₂ (.inr ⟨hf.height rest rfl, rfl⟩), ?_, hv⟩
          rw [← hm]
          exact members_balance left rest

end MapIndex

/-! ## Maps -/

structure ValueMap (K V : Type*) [LinearOrder K] [Inhabited K] where
  root : Option (Index (K × V) K)
  balanced : ∀ t ∈ root, MapIndex.Balanced t
  sorted : Sorted (rootMembers root)

namespace ValueMap

open MapIndex

def new : ValueMap K V := ⟨none, nofun, sorted_nil⟩

variable (m : ValueMap K V)

def members : List (K × V) := rootMembers m.root

def len (m : ValueMap K V) : Nat := (m.root.map Index.len).getD 0

def isEmpty : Bool := m.root.isNone

def get (m : ValueMap K V) (key : K) : Option V :=
  match m.root with
  | none => none
  | some node => MapIndex.get node key

def getIndex (index : Nat) : Option (K × V) :=
  match m.root with
  | none => none
  | some node => if node.len ≤ index then none else node.nth index

def iter : Members (K × V) K := .new m.root

variable {root : Index (K × V) K}

theorem sorted_root (h : m.root = some root) : Sorted root.members := by
  have hs := m.sorted
  rw [h] at hs
  exact hs

def updated (key : K) (value : V) : ValueMap K V × Option V :=
  match hroot : m.root with
  | some root =>
    have hspec := insert_spec (m.balanced root hroot) (m.sorted_root hroot) key value
    (⟨some (MapIndex.insert root key value).1, fun _ ht => Option.some.inj ht ▸ hspec.1,
        (congrArg Sorted hspec.2.2.1).mpr ((m.sorted_root hroot).insert key value)⟩,
      (MapIndex.insert root key value).2)
  | none =>
    (⟨some (leaf [(key, value)]),
        fun _ ht => Option.some.inj ht ▸ .leaf Nat.one_pos (Nat.succ_le_succ (Nat.zero_le 31)),
        List.pairwise_singleton _ _⟩, none)

def insert (key : K) (value : V) : Except CollectionError (ValueMap K V × Option V) :=
  if m.get key = none ∧ Word.u64Max < m.len + 1 then .error .lengthOverflow
  else .ok (m.updated key value)

def remove (m : ValueMap K V) (key : K) : ValueMap K V × Option V :=
  match hroot : m.root with
  | none => (m, none)
  | some root =>
    have hspec := remove_spec (m.balanced root hroot) (m.sorted_root hroot) key
    (⟨(MapIndex.remove root key).1, hspec.1.balanced,
        (congrArg Sorted hspec.2.1).mpr ((m.sorted_root hroot).erase key)⟩,
      (MapIndex.remove root key).2)

def ofOrdered (entries : List (K × V)) (h : Sorted entries) : ValueMap K V :=
  ⟨collect summarize entries, (collect_spec summarize entries).1,
    (congrArg Sorted (collect_spec summarize entries).2).mpr h⟩

def ofEntries (entries : List (K × V)) : ValueMap K V :=
  ofOrdered (OrderedAssoc.ofEntries entries) (sorted_ofEntries entries)

/-! ### Refinement of ordered maps -/

variable {m : ValueMap K V}

theorem members_root (h : m.root = some root) :
    m.members = root.members := by
  rw [members, h]
  rfl

theorem members_empty (h : m.root = none) : m.members = [] := by
  rw [members, h]
  rfl

variable (m : ValueMap K V)

theorem len_eq : m.len = m.members.length := by
  cases h : m.root with
  | none => rw [len, h, members_empty h]; rfl
  | some root => rw [len, h, members_root h]; exact (m.balanced root h).len_eq

theorem isEmpty_iff : m.isEmpty = true ↔ m.members = [] := by
  cases h : m.root with
  | none => simp [isEmpty, h, members_empty h]
  | some root => simp [isEmpty, h, members_root h, (m.balanced root h).members_ne_nil]

theorem get_eq (key : K) : m.get key = lookup m.members key := by
  unfold get
  split
  next h => rw [members_empty h]; rfl
  next root h =>
    rw [members_root h]
    exact MapIndex.get_eq (m.balanced root h) (m.sorted_root h) key

theorem getIndex_eq (index : Nat) : m.getIndex index = m.members[index]? := by
  unfold getIndex
  split
  next h => rw [members_empty h]; rfl
  next root h =>
    have hb := m.balanced root h
    rw [members_root h]
    split
    next hle => exact (List.getElem?_eq_none (hb.len_eq ▸ hle)).symm
    next => exact hb.nth_eq index

theorem yields_iter : Members.Yields m.iter m.members :=
  Members.yields_new m.balanced

theorem members_updated (key : K) (value : V) :
    (m.updated key value).1.members = OrderedAssoc.insert m.members key value ∧
      (m.updated key value).2 = lookup m.members key := by
  unfold updated
  split
  next root h =>
    rw [members_root h]
    exact (insert_spec (m.balanced root h) (m.sorted_root h) key value).2.2
  next h =>
    rw [members_empty h]
    exact ⟨rfl, rfl⟩

theorem members_insert (key : K) (value : V) :
    (m.insert key value).map (fun r => (r.1.members, r.2)) =
      if lookup m.members key = none ∧ Word.u64Max < m.members.length + 1 then
        .error .lengthOverflow
      else .ok (OrderedAssoc.insert m.members key value, lookup m.members key) := by
  unfold insert
  rw [m.get_eq, m.len_eq]
  split
  next => rfl
  next =>
    obtain ⟨hm, hv⟩ := m.members_updated key value
    rw [← hm, ← hv]
    rfl

theorem members_remove (key : K) :
    (m.remove key).1.members = erase m.members key ∧ (m.remove key).2 = lookup m.members key := by
  unfold remove
  split
  next h =>
    rw [members_empty h]
    exact ⟨rfl, rfl⟩
  next root h =>
    rw [members_root h]
    exact (remove_spec (m.balanced root h) (m.sorted_root h) key).2

end ValueMap

/-! ## The builder -/

structure ValueMapBuilder (K V : Type*) [LinearOrder K] [Inhabited K] where
  assembly : Assembly (K × V) K
  sound : assembly.Sound MapIndex.summarize
  sorted : Sorted assembly.members

namespace ValueMapBuilder

open MapIndex

def new : ValueMapBuilder K V := ⟨.new, Assembly.sound_new, sorted_nil⟩

def len (b : ValueMapBuilder K V) : Nat := b.assembly.len

variable (b : ValueMapBuilder K V)

def lastKey : Option K :=
  (b.assembly.pending.getLast?.map Prod.fst).or
    (b.assembly.forest.trees.head?.map Index.summary)

def members (b : ValueMapBuilder K V) : List (K × V) := b.assembly.members

theorem lastKey_eq : b.lastKey = b.members.getLast?.map Prod.fst := by
  obtain ⟨⟨pending, ⟨trees⟩, len⟩, sound, -⟩ := b
  change (pending.getLast?.map Prod.fst).or (trees.head?.map Index.summary) =
    (trees.reverse.flatMap Index.members ++ pending).getLast?.map Prod.fst
  rcases List.eq_nil_or_concat' pending with rfl | ⟨front, last, rfl⟩
  · cases trees with
    | nil => rfl
    | cons tree trees =>
      obtain ⟨front, value, hlast⟩ := exists_last (sound.forest tree List.mem_cons_self)
      simp [hlast]
  · simp

def unordered (key : K) : Bool := b.lastKey.any fun last => key ≤ last

theorem unordered_iff (key : K) : b.unordered key = true ↔ ∃ entry ∈ b.members, key ≤ entry.1 := by
  have hs : Sorted b.members := b.sorted
  rw [unordered, lastKey_eq]
  rcases List.eq_nil_or_concat' b.members with hnil | ⟨front, last, hlast⟩
  · simp [hnil]
  · rw [hlast] at hs ⊢
    rw [List.getLast?_concat]
    constructor
    · intro hle
      exact ⟨last, List.mem_append_right _ List.mem_cons_self, of_decide_eq_true hle⟩
    · rintro ⟨entry, he, hle⟩
      refine decide_eq_true ?_
      rcases List.mem_append.mp he with hf | hm
      · exact hle.trans ((sorted_append.mp hs).2.2 entry hf last List.mem_cons_self).le
      · exact List.mem_singleton.mp hm ▸ hle

variable {b : ValueMapBuilder K V}

theorem lt_of_ordered (h : ¬ b.unordered key = true) :
    ∀ entry ∈ b.members, entry.1 < key :=
  fun entry he => lt_of_not_ge fun hle => h ((b.unordered_iff key).mpr ⟨entry, he, hle⟩)

theorem sorted_push {value : V} {assembly : Assembly (K × V) K} (hk : ¬ b.unordered key = true)
    (hp : b.assembly.push summarize (key, value) = .ok assembly) : Sorted assembly.members := by
  rcases Assembly.push_spec b.sound (key, value) with ⟨-, her⟩ | ⟨next, hok, -, -, hm⟩
  · rw [her] at hp
    cases hp
  · rw [hok] at hp
    cases hp
    rw [hm]
    refine sorted_append.mpr ⟨b.sorted, List.pairwise_singleton _ _, fun entry he y hy => ?_⟩
    rw [List.mem_singleton.mp hy]
    exact lt_of_ordered hk entry he

def append (key : K) (value : V) : Except CollectionError (ValueMapBuilder K V) :=
  if hkey : b.unordered key = true then .error .keyOrder
  else
    match hpush : b.assembly.push summarize (key, value) with
    | .error e => .error e
    | .ok assembly => .ok ⟨assembly, b.sound.of_push hpush, sorted_push hkey hpush⟩

def finish (b : ValueMapBuilder K V) : ValueMap K V :=
  ⟨b.assembly.finish summarize, (Assembly.finish_spec b.sound).1,
    (congrArg Sorted (Assembly.finish_spec b.sound).2).mpr b.sorted⟩

theorem len_eq : b.len = b.members.length := b.sound.len

theorem members_append (key : K) (value : V) : (b.append key value).map members =
      if ∃ entry ∈ b.members, key ≤ entry.1 then .error .keyOrder
      else if Word.u64Max < b.members.length + 1 then .error .lengthOverflow
      else .ok (insert b.members key value) := by
  by_cases hk : b.unordered key = true
  · rw [append, dif_pos hk, if_pos ((b.unordered_iff key).mp hk)]
    rfl
  · rw [append, dif_neg hk, if_neg (mt (b.unordered_iff key).mpr hk),
      insert_of_lt (lt_of_ordered hk), members, ← Assembly.map_push b.sound (key, value)]
    split
    next hp => exact (congrArg (Except.map Assembly.members) hp).symm
    next hp => exact (congrArg (Except.map Assembly.members) hp).symm

theorem members_finish : b.finish.members = b.members := (Assembly.finish_spec b.sound).2

end ValueMapBuilder

end Xolotl.Types
