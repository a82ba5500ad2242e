import Xolotl.Types.Index
import Xolotl.Lib.Word

/-! Sequential assembly of an index: full leaves enter a forest of trees of decreasing
height, joined from the right at the end. -/

namespace Xolotl.Types

open List

inductive CollectionError
  | lengthOverflow | prefixOutOfBounds | keyOrder
  deriving DecidableEq, Repr

variable {α σ : Type*}

def rootMembers (root : Option (Index α σ)) : List α := (root.map Index.members).getD []

/-! ## Forests -/

structure Forest (α σ : Type*) where
  trees : List (Index α σ)

namespace Forest

def new : Forest α σ := ⟨[]⟩

def carry : List (Index α σ) → Index α σ → List (Index α σ)
  | [], tree => [tree]
  | left :: trees, tree =>
    if left.height ≠ tree.height then tree :: left :: trees else carry trees (left.join tree)

variable (forest : Forest α σ)

def push (tree : Index α σ) : Forest α σ := ⟨carry forest.trees tree⟩

def finish : Option (Index α σ) :=
  match forest.trees with
  | [] => none
  | root :: trees => some (trees.foldl (fun root left => left.join root) root)

def members (forest : Forest α σ) : List α := forest.trees.reverse.flatMap Index.members

def Balanced (summarize : List α → σ) (forest : Forest α σ) : Prop :=
  ∀ t ∈ forest.trees, t.Balanced summarize

theorem carry_members (trees : List (Index α σ)) (tree : Index α σ) :
    (carry trees tree).reverse.flatMap Index.members =
      trees.reverse.flatMap Index.members ++ tree.members := by
  induction trees generalizing tree with
  | nil => simp [carry]
  | cons left trees ih =>
    rw [carry]
    split
    · simp
    · rw [ih]
      simp

@[simp] theorem members_push (tree : Index α σ) :
    (forest.push tree).members = forest.members ++ tree.members :=
  carry_members forest.trees tree

variable {summarize : List α → σ} {trees : List (Index α σ)} {forest : Forest α σ}

theorem carry_balanced {tree : Index α σ}
    (h : ∀ t ∈ trees, t.Balanced summarize) (ht : tree.Balanced summarize) :
    ∀ t ∈ carry trees tree, t.Balanced summarize := by
  induction trees generalizing tree with
  | nil => exact forall_mem_singleton.mpr ht
  | cons left trees ih =>
    rw [carry]
    obtain ⟨hl, htr⟩ := forall_mem_cons.mp h
    split
    · exact forall_mem_cons.mpr ⟨ht, h⟩
    · exact ih htr (hl.join ht)

theorem Balanced.push {tree : Index α σ} (h : forest.Balanced summarize)
    (ht : tree.Balanced summarize) : (forest.push tree).Balanced summarize :=
  carry_balanced h ht

theorem fold_spec {root : Index α σ}
    (h : ∀ t ∈ trees, t.Balanced summarize) (hr : root.Balanced summarize) :
    (trees.foldl (fun root left => left.join root) root).Balanced summarize ∧
      (trees.foldl (fun root left => left.join root) root).members =
        trees.reverse.flatMap Index.members ++ root.members := by
  induction trees generalizing root with
  | nil => exact ⟨hr, rfl⟩
  | cons left trees ih =>
    obtain ⟨hl, ht⟩ := forall_mem_cons.mp h
    obtain ⟨hb, hm⟩ := ih ht (hl.join hr)
    refine ⟨hb, ?_⟩
    rw [foldl_cons, hm]
    simp

theorem finish_spec (h : forest.Balanced summarize) :
    (∀ t ∈ forest.finish, t.Balanced summarize) ∧ rootMembers forest.finish = forest.members := by
  obtain ⟨trees⟩ := forest
  cases trees with
  | nil => exact ⟨nofun, rfl⟩
  | cons root trees =>
    obtain ⟨hr, htr⟩ := forall_mem_cons.mp h
    obtain ⟨hb, hm⟩ := fold_spec htr hr
    refine ⟨fun t ht => Option.some.inj ht ▸ hb, ?_⟩
    refine hm.trans ?_
    simp [members]

end Forest

/-! ## Assembly -/

structure Assembly (α σ : Type*) where
  pending : List α
  forest : Forest α σ
  len : Nat

namespace Assembly

def new : Assembly α σ := ⟨[], .new, 0⟩

variable (summarize : List α → σ)

def flush (a : Assembly α σ) : Assembly α σ :=
  if a.pending = [] then a
  else { a with pending := [], forest := a.forest.push (.ofMembers summarize a.pending) }

def push (a : Assembly α σ) (member : α) : Except CollectionError (Assembly α σ) :=
  if Word.u64Max < a.len + 1 then .error .lengthOverflow
  else
    let a := { a with pending := a.pending ++ [member], len := a.len + 1 }
    .ok (if a.pending.length = leafCapacity then a.flush summarize else a)

def finish (summarize : List α → σ) (a : Assembly α σ) : Option (Index α σ) :=
  (a.flush summarize).forest.finish

def members (a : Assembly α σ) : List α := a.forest.members ++ a.pending

structure Sound (summarize : List α → σ) (a : Assembly α σ) : Prop where
  forest : a.forest.Balanced summarize
  pending : a.pending.length < leafCapacity
  len : a.len = a.members.length

variable {summarize : List α → σ}

theorem sound_new : (new : Assembly α σ).Sound summarize := ⟨nofun, Nat.zero_lt_succ 31, rfl⟩

variable {a : Assembly α σ}

theorem flush_spec (hf : a.forest.Balanced summarize) (hp : a.pending.length ≤ leafCapacity) :
    (a.flush summarize).forest.Balanced summarize ∧ (a.flush summarize).pending = [] ∧
      (a.flush summarize).forest.members = a.members ∧ (a.flush summarize).len = a.len := by
  unfold flush
  split
  next hnil =>
    refine ⟨hf, hnil, ?_, rfl⟩
    rw [members, hnil, append_nil]
  next hne =>
    refine ⟨hf.push (.leaf (length_pos_of_ne_nil hne) hp), rfl, ?_, rfl⟩
    rw [Forest.members_push]
    rfl

theorem settle_spec (a : Assembly α σ) (hf : a.forest.Balanced summarize)
    (hp : a.pending.length ≤ leafCapacity) (hl : a.len = a.members.length) :
    (if a.pending.length = leafCapacity then a.flush summarize else a).Sound summarize ∧
      (if a.pending.length = leafCapacity then a.flush summarize else a).members = a.members := by
  split
  next =>
    obtain ⟨hfs, hpe, hm, hle⟩ := flush_spec hf hp
    have ha : (a.flush summarize).members = a.members := by
      rw [members, hpe, append_nil, hm]
    refine ⟨⟨hfs, ?_, ?_⟩, ha⟩
    · rw [hpe]
      exact Nat.zero_lt_succ 31
    · rw [hle, hl, ha]
  next hne => exact ⟨⟨hf, Nat.lt_of_le_of_ne hp hne, hl⟩, rfl⟩

variable (h : a.Sound summarize)
include h

theorem push_spec (member : α) :
    (Word.u64Max < a.members.length + 1 ∧ a.push summarize member = .error .lengthOverflow) ∨
    ∃ a', a.push summarize member = .ok a' ∧ a.members.length + 1 ≤ Word.u64Max ∧
      a'.Sound summarize ∧ a'.members = a.members ++ [member] := by
  unfold push
  rw [h.len]
  split
  next ho => exact .inl ⟨ho, rfl⟩
  next hf =>
    have hm : members { a with pending := a.pending ++ [member], len := a.members.length + 1 } =
        a.members ++ [member] := (append_assoc _ _ _).symm
    have hp : (a.pending ++ [member]).length ≤ leafCapacity := by
      rw [length_append]
      exact h.pending
    obtain ⟨hs, ha⟩ := settle_spec
      { a with pending := a.pending ++ [member], len := a.members.length + 1 } h.forest hp
      (by rw [hm, length_append]; rfl)
    exact .inr ⟨_, rfl, Nat.le_of_not_lt hf, hs, ha.trans hm⟩

theorem Sound.of_push {a' : Assembly α σ} {member : α}
    (hp : a.push summarize member = .ok a') : a'.Sound summarize := by
  rcases push_spec h member with ⟨-, he⟩ | ⟨b, hok, -, hs, -⟩
  · rw [he] at hp
    cases hp
  · rw [hok] at hp
    cases hp
    exact hs

theorem map_push (member : α) : (a.push summarize member).map members =
      if Word.u64Max < a.members.length + 1 then .error .lengthOverflow
      else .ok (a.members ++ [member]) := by
  rcases push_spec h member with ⟨ho, he⟩ | ⟨b, hok, hf, -, hm⟩
  · rw [he, if_pos ho]
    rfl
  · rw [hok, if_neg (Nat.not_lt.mpr hf), ← hm]
    rfl

omit h in
theorem members_sublist (a : Assembly α σ) {t : Index α σ} (ht : t ∈ a.forest.trees) :
    t.members.Sublist a.members := by
  refine .trans ?_ (sublist_append_left _ _)
  exact sublist_flatten_of_mem (mem_map_of_mem (mem_reverse.mpr ht))

theorem finish_spec : (∀ t ∈ a.finish summarize, t.Balanced summarize) ∧
      rootMembers (a.finish summarize) = a.members := by
  obtain ⟨hf, -, hm, -⟩ := flush_spec h.forest h.pending.le
  obtain ⟨hb, hr⟩ := Forest.finish_spec hf
  exact ⟨hb, hr.trans hm⟩

end Assembly

/-! ## Collection -/

def collectInto (summarize : List α → σ) (values : List α) (forest : Forest α σ) :
    Option (Index α σ) :=
  if _h : values = [] then forest.finish
  else
    collectInto summarize (values.drop leafCapacity)
      (forest.push (.ofMembers summarize (values.take leafCapacity)))
termination_by values.length
decreasing_by
  have := length_pos_of_ne_nil _h
  rw [length_drop, leafCapacity]
  omega

def collect (summarize : List α → σ) (values : List α) : Option (Index α σ) :=
  collectInto summarize values .new

variable {summarize : List α → σ}

theorem collectInto_spec (values : List α) {forest : Forest α σ} (h : forest.Balanced summarize) :
    (∀ t ∈ collectInto summarize values forest, t.Balanced summarize) ∧
      rootMembers (collectInto summarize values forest) = forest.members ++ values := by
  fun_induction collectInto summarize values forest with
  | case1 forest => simpa using Forest.finish_spec h
  | case2 values forest hne ih =>
    have hpos : 0 < (values.take leafCapacity).length := by
      rw [length_take]
      exact Nat.lt_min.mpr ⟨Nat.zero_lt_succ 31, length_pos_of_ne_nil hne⟩
    have hl : (Index.ofMembers summarize (values.take leafCapacity)).Balanced summarize :=
      .leaf hpos (length_take_le _ _)
    obtain ⟨hb, hm⟩ := ih (h.push hl)
    refine ⟨hb, ?_⟩
    rw [hm, Forest.members_push, Index.members_ofMembers, append_assoc, take_append_drop]

theorem collect_spec (summarize : List α → σ) (values : List α) :
    (∀ t ∈ collect summarize values, t.Balanced summarize) ∧
      rootMembers (collect summarize values) = values :=
  have hn : (Forest.new : Forest α σ).Balanced summarize := nofun
  collectInto_spec values hn

end Xolotl.Types
