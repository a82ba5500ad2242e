import Mathlib

/-! The balanced member index under lists and maps: nodes with cached length, height
and routing summary, rebalancing and joining. -/

namespace Xolotl.Types

open List

def leafCapacity : Nat := 32

inductive Index (α σ : Type*)
  | leaf (len height : Nat) (summary : σ) (members : List α)
  | branch (len height : Nat) (summary : σ) (left right : Index α σ)

namespace Index

variable {α σ : Type*}

def len : Index α σ → Nat
  | leaf len _ _ _ | branch len _ _ _ _ => len

def height : Index α σ → Nat
  | leaf _ height _ _ | branch _ height _ _ _ => height

def summary : Index α σ → σ
  | leaf _ _ summary _ | branch _ _ summary _ _ => summary

def ofMembers (summarize : List α → σ) (members : List α) : Index α σ :=
  leaf members.length 0 (summarize members) members

variable (left right : Index α σ)

def node : Index α σ :=
  branch (left.len + right.len) (max left.height right.height + 1) right.summary left right

def balanceLeft : Option (Index α σ) :=
  if right.height + 1 < left.height then
    match left with
    | branch _ _ _ outer inner =>
      if inner.height ≤ outer.height then some (node outer (node inner right))
      else
        match inner with
        | branch _ _ _ middleLeft middleRight =>
          some (node (node outer middleLeft) (node middleRight right))
        | leaf _ _ _ _ => none
    | leaf _ _ _ _ => none
  else none

def balanceRight : Option (Index α σ) :=
  if left.height + 1 < right.height then
    match right with
    | branch _ _ _ inner outer =>
      if inner.height ≤ outer.height then some (node (node left inner) outer)
      else
        match inner with
        | branch _ _ _ middleLeft middleRight =>
          some (node (node left middleLeft) (node middleRight outer))
        | leaf _ _ _ _ => none
    | leaf _ _ _ _ => none
  else none

def balance : Index α σ :=
  match balanceLeft left right with
  | some tree => tree
  | none =>
    match balanceRight left right with
    | some tree => tree
    | none => node left right

def join (left right : Index α σ) : Index α σ :=
  if right.height + 1 < left.height then
    match left with
    | branch _ _ _ outer inner => balance outer (join inner right)
    | leaf _ _ _ _ => node left right
  else if left.height + 1 < right.height then
    match right with
    | branch _ _ _ inner outer => balance (join left inner) outer
    | leaf _ _ _ _ => node left right
  else node left right
termination_by sizeOf left + sizeOf right

/-! ## Members -/

def members : Index α σ → List α
  | leaf _ _ _ members => members
  | branch _ _ _ left right => left.members ++ right.members

@[simp] theorem members_ofMembers (summarize : List α → σ) (ms : List α) :
    (ofMembers summarize ms).members = ms := rfl

@[simp] theorem members_node : (node left right).members = left.members ++ right.members := rfl

variable {left right t tree u : Index α σ}

theorem members_rotated
    (h : balanceLeft left right = some tree ∨ balanceRight left right = some tree) :
    tree.members = left.members ++ right.members := by
  rcases h with h | h
  on_goal 1 => unfold balanceLeft at h
  on_goal 2 => unfold balanceRight at h
  all_goals
    split at h
    next =>
      split at h
      next =>
        split at h
        next => cases h; simp [members]
        next =>
          split at h
          next => cases h; simp [members]
          next => cases h
      next => cases h
    next => cases h

@[simp] theorem members_balance (left right : Index α σ) :
    (balance left right).members = left.members ++ right.members := by
  unfold balance
  split
  next h => exact members_rotated (.inl h)
  next =>
    split
    next h => exact members_rotated (.inr h)
    next => rfl

@[simp] theorem members_join (left right : Index α σ) :
    (join left right).members = left.members ++ right.members := by
  fun_induction join left right with
  | case1 => simp [members, *]
  | case2 => rfl
  | case3 => simp [members, *]
  | case4 => rfl
  | case5 => rfl

/-! ## Balance -/

variable {summarize : List α → σ}

/-- Caches are exact, leaves hold 1 to 32 members, and sibling heights differ by at most one. -/
inductive Balanced (summarize : List α → σ) : Index α σ → Prop
  | leaf {ms : List α} : 0 < ms.length → ms.length ≤ leafCapacity →
      Balanced summarize (ofMembers summarize ms)
  | node {left right : Index α σ} : Balanced summarize left → Balanced summarize right →
      left.height ≤ right.height + 1 → right.height ≤ left.height + 1 →
      Balanced summarize (node left right)

@[simp] theorem height_branch (len height : Nat) (summary : σ) (left right : Index α σ) :
    (branch len height summary left right).height = height := rfl

@[simp] theorem height_node (left right : Index α σ) :
    (node left right).height = max left.height right.height + 1 := rfl

theorem Balanced.exists_node (h : Balanced summarize t) (hpos : 0 < t.height) :
    ∃ left right, t = .node left right ∧ Balanced summarize left ∧ Balanced summarize right ∧
      left.height ≤ right.height + 1 ∧ right.height ≤ left.height + 1 := by
  cases h with
  | leaf _ _ => exact absurd hpos (Nat.lt_irrefl 0)
  | node hl hr h₁ h₂ => exact ⟨_, _, rfl, hl, hr, h₁, h₂⟩

def Rises (t : Index α σ) (height : Nat) : Prop := height ≤ t.height ∧ t.height ≤ height + 1

section

variable (hl : Balanced summarize left) (hr : Balanced summarize right)
include hl hr

theorem balanceLeft_spec (h : left.height = right.height + 2) :
    ∃ tree, balanceLeft left right = some tree ∧ Balanced summarize tree ∧
      tree.Rises left.height := by
  obtain ⟨outer, inner, rfl, ho, hi, h₁, h₂⟩ := hl.exists_node (by omega)
  rw [height_node] at h
  have hlt : right.height + 1 < (node outer inner).height := by
    rw [height_node]
    omega
  by_cases hc : inner.height ≤ outer.height
  · refine ⟨node outer (node inner right), ?_, ?_, ?_⟩
    · exact (if_pos hlt).trans (if_pos hc)
    · refine .node ho (.node hi hr (by omega) (by omega)) ?_ ?_ <;> rw [height_node] <;> omega
    · constructor <;> simp only [height_node] <;> omega
  · obtain ⟨middleLeft, middleRight, rfl, hml, hmr, h₃, h₄⟩ := hi.exists_node (by omega)
    rw [height_node] at h h₂ hc
    refine ⟨node (node outer middleLeft) (node middleRight right), ?_, ?_, ?_⟩
    · exact (if_pos hlt).trans (if_neg hc)
    · refine .node (.node ho hml (by omega) (by omega))
        (.node hmr hr (by omega) (by omega)) ?_ ?_ <;>
        simp only [height_node] <;> omega
    · constructor <;> simp only [height_node] <;> omega

theorem balanceRight_spec (h : right.height = left.height + 2) :
    ∃ tree, balanceRight left right = some tree ∧ Balanced summarize tree ∧
      tree.Rises right.height := by
  obtain ⟨inner, outer, rfl, hi, ho, h₁, h₂⟩ := hr.exists_node (by omega)
  rw [height_node] at h
  have hlt : left.height + 1 < (node inner outer).height := by
    rw [height_node]
    omega
  by_cases hc : inner.height ≤ outer.height
  · refine ⟨node (node left inner) outer, ?_, ?_, ?_⟩
    · exact (if_pos hlt).trans (if_pos hc)
    · refine .node (.node hl hi (by omega) (by omega)) ho ?_ ?_ <;> rw [height_node] <;> omega
    · constructor <;> simp only [height_node] <;> omega
  · obtain ⟨middleLeft, middleRight, rfl, hml, hmr, h₃, h₄⟩ := hi.exists_node (by omega)
    rw [height_node] at h h₁ hc
    refine ⟨node (node left middleLeft) (node middleRight outer), ?_, ?_, ?_⟩
    · exact (if_pos hlt).trans (if_neg hc)
    · refine .node (.node hl hml (by omega) (by omega))
        (.node hmr ho (by omega) (by omega)) ?_ ?_ <;>
        simp only [height_node] <;> omega
    · constructor <;> simp only [height_node] <;> omega

theorem balance_spec (h₁ : left.height ≤ right.height + 2)
    (h₂ : right.height ≤ left.height + 2) : Balanced summarize (balance left right) ∧
      (balance left right).Rises (max left.height right.height) ∧
      (left.height ≤ right.height + 1 → right.height ≤ left.height + 1 →
        (balance left right).height = max left.height right.height + 1) := by
  by_cases hle : left.height = right.height + 2
  · obtain ⟨tree, ht, hb, hri⟩ := balanceLeft_spec hl hr hle
    rw [balance, ht, show max left.height right.height = left.height by omega]
    exact ⟨hb, hri, by omega⟩
  have hn : balanceLeft left right = none := if_neg (by omega)
  by_cases hrt : right.height = left.height + 2
  · obtain ⟨tree, ht, hb, hri⟩ := balanceRight_spec hl hr hrt
    rw [balance, hn, ht, show max left.height right.height = right.height by omega]
    exact ⟨hb, hri, by omega⟩
  have hn' : balanceRight left right = none := if_neg (by omega)
  rw [balance, hn, hn']
  refine ⟨.node hl hr (by omega) (by omega), ?_, fun _ _ => rfl⟩
  constructor <;> simp only [height_node] <;> omega

theorem join_spec : Balanced summarize (join left right) ∧
      (join left right).Rises (max left.height right.height) := by
  fun_induction join left right with
  | case1 right len height summary outer inner hlt ih =>
    cases hl with
    | node ho hi h₁ h₂ =>
      obtain ⟨hb, hri⟩ := ih hi hr
      rw [height_branch] at hlt
      simp only [Rises] at hri
      obtain ⟨hb', hri', he⟩ := balance_spec ho hb (by omega) (by omega)
      refine ⟨hb', ?_⟩
      rw [height_branch]
      simp only [Rises] at hri' ⊢
      omega
  | case2 right len height summary ms hlt =>
    cases hl with
    | leaf _ _ => exact absurd hlt (Nat.not_lt_zero _)
  | case3 left len height summary inner outer hlt hlt' ih =>
    cases hr with
    | node hi ho h₁ h₂ =>
      obtain ⟨hb, hri⟩ := ih hl hi
      rw [height_branch] at hlt'
      simp only [Rises] at hri
      obtain ⟨hb', hri', he⟩ := balance_spec hb ho (by omega) (by omega)
      refine ⟨hb', ?_⟩
      rw [height_branch]
      simp only [Rises] at hri' ⊢
      omega
  | case4 left len height summary ms hlt hlt' =>
    cases hr with
    | leaf _ _ => exact absurd hlt' (Nat.not_lt_zero _)
  | case5 left right hlt hlt' =>
    refine ⟨.node hl hr (by omega) (by omega), ?_⟩
    rw [Rises, height_node]
    omega

theorem Balanced.join : Balanced summarize (join left right) := (join_spec hl hr).1

end

/-! ## Caches -/

theorem Balanced.len_eq (h : Balanced summarize t) : t.len = t.members.length := by
  induction h with
  | leaf _ _ => rfl
  | node _ _ _ _ ihl ihr =>
    rw [members_node, length_append, ← ihl, ← ihr]
    rfl

theorem Balanced.members_ne_nil (h : Balanced summarize t) : t.members ≠ [] := by
  induction h with
  | leaf hpos _ => exact ne_nil_of_length_pos hpos
  | node _ _ _ _ ihl _ => exact append_ne_nil_of_left_ne_nil ihl _

/-- If the summary of nonempty members is that of their right part, every cached
summary is the summary of the members below it. -/
theorem Balanced.summary_eq (ha : ∀ a b : List α, b ≠ [] → summarize (a ++ b) = summarize b)
    (h : Balanced summarize t) : t.summary = summarize t.members := by
  induction h with
  | leaf _ _ => rfl
  | node _ hr _ _ _ ihr =>
    rw [members_node, ha _ _ hr.members_ne_nil, ← ihr]
    rfl

/-! ## Lookup by position -/

def nth : Index α σ → Nat → Option α
  | leaf _ _ _ members, index => members[index]?
  | branch _ _ _ left right, index =>
    if index < left.len then left.nth index else right.nth (index - left.len)

theorem Balanced.nth_eq (h : Balanced summarize t) (index : Nat) :
    t.nth index = t.members[index]? := by
  induction h generalizing index with
  | leaf _ _ => rfl
  | @node left right hl hr _ _ ihl ihr =>
    change (if index < left.len then left.nth index else right.nth (index - left.len)) = _
    rw [members_node, ihl, ihr, hl.len_eq]
    split
    next hlt => rw [List.getElem?_append_left hlt]
    next hge => rw [List.getElem?_append_right (Nat.le_of_not_lt hge)]

/-! ## Nodes -/

def nodes : Index α σ → List (Index α σ)
  | leaf len height summary members => [leaf len height summary members]
  | branch len height summary left right =>
    branch len height summary left right :: (left.nodes ++ right.nodes)

theorem Balanced.of_mem_nodes (h : Balanced summarize t) (hu : u ∈ t.nodes) :
    Balanced summarize u := by
  induction h with
  | leaf h₁ h₂ =>
    rw [mem_singleton.mp hu]
    exact .leaf h₁ h₂
  | @node left right hl hr h₁ h₂ ihl ihr =>
    change u ∈ Index.node left right :: (left.nodes ++ right.nodes) at hu
    rcases mem_cons.mp hu with rfl | hu
    · exact .node hl hr h₁ h₂
    · rcases mem_append.mp hu with hu | hu
      · exact ihl hu
      · exact ihr hu

theorem members_sublist (hu : u ∈ t.nodes) : u.members.Sublist t.members := by
  induction t with
  | leaf _ _ _ _ => rw [mem_singleton.mp hu]
  | branch _ _ _ left right ihl ihr =>
    rcases mem_cons.mp hu with rfl | hu
    · exact List.Sublist.refl _
    · rcases mem_append.mp hu with hu | hu
      · exact (ihl hu).trans (sublist_append_left _ _)
      · exact (ihr hu).trans (sublist_append_right _ _)

def Sound : Index α σ → Prop
  | leaf len height _ members =>
    len = members.length ∧ height = 0 ∧ 1 ≤ members.length ∧ members.length ≤ leafCapacity
  | branch len height _ left right =>
    len = (left.members ++ right.members).length ∧ height = max left.height right.height + 1 ∧
      left.height ≤ right.height + 1 ∧ right.height ≤ left.height + 1

theorem Balanced.sound (h : Balanced summarize t) : t.Sound := by
  cases h with
  | leaf h₁ h₂ => exact ⟨rfl, rfl, h₁, h₂⟩
  | node hl hr h₁ h₂ =>
    refine ⟨?_, rfl, h₁, h₂⟩
    rw [length_append, ← hl.len_eq, ← hr.len_eq]

end Index

/-! ## Traversal -/

/-- The depth-first walk over the leaves: the next node, and the stack of later ones. -/
structure Leaves (α σ : Type*) where
  next : Option (Index α σ)
  pending : List (Index α σ)

namespace Leaves

variable {α σ : Type*}

def new (root : Option (Index α σ)) : Leaves α σ := ⟨root, []⟩

def descend : Index α σ → List (Index α σ) → List α × List (Index α σ)
  | .leaf _ _ _ members, pending => (members, pending)
  | .branch _ _ _ left right, pending => descend left (right :: pending)

def step (leaves : Leaves α σ) : Option (List α × Leaves α σ) :=
  match leaves.next with
  | some node => some ((descend node leaves.pending).1, ⟨none, (descend node leaves.pending).2⟩)
  | none =>
    match leaves.pending with
    | [] => none
    | node :: pending => some ((descend node pending).1, ⟨none, (descend node pending).2⟩)

def queue (leaves : Leaves α σ) : List (Index α σ) := leaves.next.toList ++ leaves.pending

theorem descend_members (node : Index α σ) (pending : List (Index α σ)) :
    (descend node pending).1 ++ (descend node pending).2.flatMap Index.members =
      node.members ++ pending.flatMap Index.members := by
  induction node generalizing pending with
  | leaf _ _ _ _ => rfl
  | branch _ _ _ left right ihl _ =>
    rw [descend, ihl, flatMap_cons, Index.members, append_assoc]

theorem step_eq (leaves : Leaves α σ) :
    leaves.step = match leaves.queue with
      | [] => none
      | node :: pending => some ((descend node pending).1, ⟨none, (descend node pending).2⟩) := by
  obtain ⟨next, pending⟩ := leaves
  cases next with
  | some node => rfl
  | none => cases pending <;> rfl

def count : Index α σ → Nat
  | .leaf _ _ _ _ => 1
  | .branch _ _ _ left right => count left + count right

theorem descend_count (node : Index α σ) (pending : List (Index α σ)) :
    ((descend node pending).2.map count).sum + 1 = count node + (pending.map count).sum := by
  induction node generalizing pending with
  | leaf _ _ _ _ => exact Nat.add_comm _ _
  | branch _ _ _ left right ihl _ =>
    rw [descend, ihl, map_cons, sum_cons, count, Nat.add_assoc]

theorem step_count {leaves leaves' : Leaves α σ} {ms : List α}
    (h : leaves.step = some (ms, leaves')) :
    (leaves'.queue.map count).sum < (leaves.queue.map count).sum := by
  rw [step_eq] at h
  split at h
  next => cases h
  next node pending hq =>
    cases h
    have hc := descend_count node pending
    rw [hq, map_cons, sum_cons, ← hc]
    exact Nat.lt_succ_self _

end Leaves

/-- The member iterator: the leaves to come, the rest of the current leaf, and how many
members remain. -/
structure Members (α σ : Type*) where
  leaves : Leaves α σ
  current : List α
  remaining : Nat

namespace Members

variable {α σ : Type*}

def new (root : Option (Index α σ)) : Members α σ :=
  ⟨.new root, [], (root.map Index.len).getD 0⟩

def next (it : Members α σ) : Option (α × Members α σ) :=
  match it.current with
  | value :: current => some (value, { it with current, remaining := it.remaining - 1 })
  | [] =>
    match _h : it.leaves.step with
    | none => none
    | some (current, leaves) => next { it with leaves, current }
termination_by (it.leaves.queue.map Leaves.count).sum
decreasing_by exact Leaves.step_count _h

variable (it : Members α σ)

def rest : List α := it.current ++ it.leaves.queue.flatMap Index.members

theorem next_eq : (it.rest = [] ∧ it.next = none) ∨
    ∃ value it', it.next = some (value, it') ∧ it.rest = value :: it'.rest ∧
      it'.remaining = it.remaining - 1 := by
  fun_induction next it with
  | case1 it value current hc =>
    refine .inr ⟨value, _, rfl, ?_, rfl⟩
    rw [rest, hc]
    rfl
  | case2 it hc hs =>
    refine .inl ⟨?_, rfl⟩
    rw [Leaves.step_eq] at hs
    split at hs
    next hq => rw [rest, hc, hq]; rfl
    next => cases hs
  | case3 it hc current leaves hs ih =>
    have hre : it.rest = rest { it with leaves, current } := by
      rw [Leaves.step_eq] at hs
      split at hs
      next => cases hs
      next node pending hq =>
        cases hs
        have hm := Leaves.descend_members node pending
        rw [rest, hc, hq]
        exact hm.symm
    rw [hre]
    exact ih

/-- The iterator yields `values` in order, announcing the exact number left before each. -/
inductive Yields : Members α σ → List α → Prop
  | nil {it : Members α σ} : it.next = none → it.remaining = 0 → Yields it []
  | cons {it it' : Members α σ} {value : α} {values : List α} : it.next = some (value, it') →
      it.remaining = values.length + 1 → Yields it' values → Yields it (value :: values)

theorem yields_rest (h : it.remaining = it.rest.length) : Yields it it.rest := by
  generalize hre : it.rest = values at h
  induction values generalizing it with
  | nil =>
    rcases it.next_eq with ⟨-, hn⟩ | ⟨value, it', -, hc, -⟩
    · exact .nil hn h
    · rw [hre] at hc
      cases hc
  | cons value values ih =>
    rcases it.next_eq with ⟨hnil, -⟩ | ⟨value', it', hn, hc, hrm⟩
    · rw [hre] at hnil
      cases hnil
    · rw [hre] at hc
      cases hc
      refine .cons hn h (ih it' rfl ?_)
      rw [hrm, h]
      rfl

theorem yields_new {summarize : List α → σ} {root : Option (Index α σ)}
    (h : ∀ t ∈ root, t.Balanced summarize) :
    Yields (new root) ((root.map Index.members).getD []) := by
  cases root with
  | none => exact yields_rest (new none) rfl
  | some t =>
    have hre : (new (some t)).rest = t.members := append_nil _
    have hy := yields_rest (new (some t)) (by rw [hre]; exact (h t rfl).len_eq)
    rwa [hre] at hy

end Members

end Xolotl.Types
