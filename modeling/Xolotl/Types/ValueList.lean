import Xolotl.Types.Assembly

/-! Persistent lists over the balanced index, and their sequential builder. -/

namespace Xolotl.Types

open List Word

variable {V : Type*}

/-! ## Updates of the index -/

namespace ListIndex

open Index

def summarize (_ : List V) : Unit := ()

def leaf (members : List V) : Index V Unit := .ofMembers summarize members

def append : Index V Unit → V → Index V Unit
  | .leaf len height summary members, value =>
    if members.length < leafCapacity then leaf (members ++ [value])
    else (Index.leaf len height summary members).join (leaf [value])
  | .branch _ _ _ left right, value => left.balance (append right value)

def copyMembers : Index V Unit → Index V Unit
  | .leaf _ _ _ members => leaf members
  | .branch _ _ _ left right => (copyMembers left).join (copyMembers right)

def prunePrefix : Index V Unit → Nat → Index V Unit
  | .leaf len height summary members, count =>
    if count = 0 then .leaf len height summary members else leaf (members.drop count)
  | .branch len height summary left right, count =>
    if count = 0 then .branch len height summary left right
    else if count < left.len then (prunePrefix left count).join right
    else prunePrefix right (count - left.len)

def replace : Index V Unit → Nat → V → Index V Unit × Option V
  | .leaf _ _ _ members, index, value => (leaf (members.set index value), members[index]?)
  | .branch _ _ _ left right, index, value =>
    if index < left.len then
      let (left, previous) := replace left index value
      (left.balance right, previous)
    else
      let (right, previous) := replace right (index - left.len) value
      (left.balance right, previous)

abbrev Balanced (t : Index V Unit) : Prop := t.Balanced summarize

variable {t : Index V Unit} (h : Balanced t)
include h

theorem append_spec (value : V) : Balanced (append t value) ∧ (append t value).Rises t.height ∧
      (append t value).members = t.members ++ [value] := by
  induction h with
  | @leaf ms hpos hc =>
    by_cases hlt : ms.length < leafCapacity
    · have heq : append (.ofMembers summarize ms) value = leaf (ms ++ [value]) := if_pos hlt
      rw [heq]
      refine ⟨.leaf ?_ ?_, ⟨Nat.le_refl 0, Nat.zero_le 1⟩, rfl⟩
      · rw [length_append]
        exact Nat.succ_pos _
      · rw [length_append]
        exact hlt
    · have heq : append (.ofMembers summarize ms) value =
          (Index.ofMembers summarize ms).join (leaf [value]) := if_neg hlt
      have hs : Balanced (leaf [value]) := .leaf Nat.one_pos (Nat.succ_le_succ (Nat.zero_le 31))
      obtain ⟨hb, hri⟩ := join_spec (.leaf hpos hc) hs
      rw [heq]
      exact ⟨hb, hri, members_join _ _⟩
  | @node left right hl hr h₁ h₂ _ ihr =>
    obtain ⟨hb, hri, hm⟩ := ihr
    have heq : append (.node left right) value = left.balance (append right value) := rfl
    simp only [Rises] at hri
    obtain ⟨hb', hri', he⟩ := balance_spec hl hb (by omega) (by omega)
    rw [heq]
    refine ⟨hb', ?_, ?_⟩
    · simp only [Rises, height_node] at hri' ⊢
      omega
    · rw [members_balance, hm, members_node, append_assoc]

theorem copyMembers_spec : Balanced (copyMembers t) ∧ (copyMembers t).members = t.members := by
  induction h with
  | leaf hpos hc => exact ⟨.leaf hpos hc, rfl⟩
  | node _ _ _ _ ihl ihr =>
    refine ⟨ihl.1.join ihr.1, ?_⟩
    change (join _ _).members = _
    rw [members_join, ihl.2, ihr.2, members_node]

theorem prunePrefix_spec {count : Nat} (hlt : count < t.len) :
    Balanced (prunePrefix t count) ∧ (prunePrefix t count).members = t.members.drop count := by
  induction h generalizing count with
  | @leaf ms hpos hc =>
    by_cases hzero : count = 0
    · subst hzero
      exact ⟨.leaf hpos hc, rfl⟩
    · have heq : prunePrefix (.ofMembers summarize ms) count = leaf (ms.drop count) := if_neg hzero
      rw [heq]
      change count < ms.length at hlt
      refine ⟨.leaf ?_ ?_, rfl⟩ <;> rw [length_drop] <;> omega
  | @node left right hl hr h₁ h₂ ihl ihr =>
    have hb : Balanced (.node left right) := .node hl hr h₁ h₂
    by_cases hzero : count = 0
    · subst hzero
      exact ⟨hb, rfl⟩
    rw [members_node, Index.node, prunePrefix, if_neg hzero]
    change count < left.len + right.len at hlt
    split
    next hle =>
      obtain ⟨hp, hm⟩ := ihl hle
      refine ⟨hp.join hr, ?_⟩
      rw [members_join, hm, drop_append_of_le_length (by rw [← hl.len_eq]; exact hle.le)]
    next hri =>
      obtain ⟨hp, hm⟩ := ihr (show count - left.len < right.len by omega)
      have hnil : left.members.drop count = [] :=
        drop_eq_nil_of_le (hl.len_eq ▸ Nat.le_of_not_lt hri)
      refine ⟨hp, ?_⟩
      rw [hm, drop_append, hnil, nil_append, hl.len_eq]

theorem replace_spec {index : Nat} (hlt : index < t.len) (value : V) :
    Balanced (replace t index value).1 ∧ (replace t index value).1.height = t.height ∧
      (replace t index value).1.members = t.members.set index value ∧
      (replace t index value).2 = t.members[index]? := by
  induction h generalizing index with
  | @leaf ms hpos hc =>
    refine ⟨.leaf ?_ ?_, rfl, rfl, rfl⟩ <;> rw [length_set]
    · exact hpos
    · exact hc
  | @node left right hl hr h₁ h₂ ihl ihr =>
    rw [members_node]
    simp only [Index.node, replace]
    rw [← Index.node]
    change index < left.len + right.len at hlt
    split
    next hle =>
      obtain ⟨hp, hh, hm, hv⟩ := ihl hle
      obtain ⟨hb, -, he⟩ := balance_spec hp hr (by omega) (by omega)
      have hln : index < left.members.length := hl.len_eq ▸ hle
      refine ⟨hb, ?_, ?_, ?_⟩
      · rw [he (by omega) (by omega), hh, height_node]
      · rw [members_balance, hm, set_append_left _ _ hln]
      · rw [hv, List.getElem?_append_left hln]
    next hri =>
      obtain ⟨hp, hh, hm, hv⟩ := ihr (show index - left.len < right.len by omega)
      obtain ⟨hb, -, he⟩ := balance_spec hl hp (by omega) (by omega)
      have hln : left.members.length ≤ index := hl.len_eq ▸ Nat.le_of_not_lt hri
      refine ⟨hb, ?_, ?_, ?_⟩
      · rw [he (by omega) (by omega), hh, height_node]
      · rw [members_balance, hm, set_append_right _ _ hln, hl.len_eq]
      · rw [hv, List.getElem?_append_right hln, hl.len_eq]

end ListIndex

/-! ## Lists -/

structure ValueList (V : Type*) where
  root : Option (Index V Unit)
  balanced : ∀ t ∈ root, ListIndex.Balanced t

namespace ValueList

open ListIndex

def new : ValueList V := ⟨none, nofun⟩

variable (l : ValueList V)

def members : List V := rootMembers l.root

def len (l : ValueList V) : Nat := (l.root.map Index.len).getD 0

def isEmpty : Bool := l.root.isNone

def get (index : Nat) : Option V :=
  match l.root with
  | none => none
  | some node => if node.len ≤ index then none else node.nth index

def iter : Members V Unit := .new l.root

def ofRoot (t : Index V Unit) (h : Balanced t) : ValueList V :=
  ⟨some t, fun _ ht => Option.some.inj ht ▸ h⟩

def push (value : V) : Except CollectionError (ValueList V) :=
  if u64Max < l.len + 1 then .error .lengthOverflow
  else
    match hroot : l.root with
    | some root => .ok (ofRoot (append root value) (append_spec (l.balanced root hroot) value).1)
    | none => .ok (ofRoot (leaf [value]) (.leaf Nat.one_pos (Nat.succ_le_succ (Nat.zero_le 31))))

variable {l : ValueList V} {root : Index V Unit}

theorem len_root (h : l.root = some root) : l.len = root.len := by
  rw [len, h]
  rfl

def removePrefix (l : ValueList V) (count : Nat) : Except CollectionError (ValueList V) :=
  if l.len < count then .error .prefixOutOfBounds
  else if count = 0 then .ok l
  else if count = l.len then .ok new
  else
    match hroot : l.root with
    | some root =>
      -- the checks above leave only this case
      if hlt : count < root.len then
        .ok (ofRoot (prunePrefix root count) (prunePrefix_spec (l.balanced root hroot) hlt).1)
      else .ok new
    | none => .ok new

def set (l : ValueList V) (index : Nat) (value : V) : ValueList V × Option V :=
  match hroot : l.root with
  | none => (l, none)
  | some root =>
    if hlt : root.len ≤ index then (l, none)
    else (ofRoot (replace root index value).1
      (replace_spec (l.balanced root hroot) (Nat.lt_of_not_le hlt) value).1,
      (replace root index value).2)

def concat (l other : ValueList V) : Except CollectionError (ValueList V) :=
  if u64Max < l.len + other.len then .error .lengthOverflow
  else
    match hl : l.root, ho : other.root with
    | some left, some right => .ok (ofRoot (left.join (copyMembers right))
        ((l.balanced left hl).join (copyMembers_spec (other.balanced right ho)).1))
    | some _, none => .ok l
    | none, some _ => .ok other
    | none, none => .ok new

def ofValues (values : List V) : ValueList V :=
  ⟨collect summarize values, (collect_spec summarize values).1⟩

/-! ### Refinement of lists -/

theorem members_root (h : l.root = some root) : l.members = root.members := by
  rw [members, h]
  rfl

theorem members_empty (h : l.root = none) : l.members = [] := by
  rw [members, h]
  rfl

variable (l)

theorem len_eq : l.len = l.members.length := by
  cases h : l.root with
  | none => rw [len, h, members_empty h]; rfl
  | some root => rw [len_root h, members_root h, (l.balanced root h).len_eq]

theorem isEmpty_iff : l.isEmpty = true ↔ l.members = [] := by
  cases h : l.root with
  | none => simp [isEmpty, h, members_empty h]
  | some root => simp [isEmpty, h, members_root h, (l.balanced root h).members_ne_nil]

theorem get_eq (index : Nat) : l.get index = l.members[index]? := by
  unfold get
  split
  next h => rw [members_empty h]; rfl
  next root h =>
    have hb := l.balanced root h
    rw [members_root h]
    split
    next hle => exact (List.getElem?_eq_none (hb.len_eq ▸ hle)).symm
    next => exact hb.nth_eq index

theorem yields_iter : Members.Yields l.iter l.members :=
  Members.yields_new l.balanced

theorem members_push (value : V) :
    (l.push value).map members =
      if u64Max < l.members.length + 1 then .error .lengthOverflow
      else .ok (l.members ++ [value]) := by
  unfold push
  rw [l.len_eq]
  split
  next => rfl
  next =>
    split
    next root h =>
      rw [members_root h]
      exact congrArg Except.ok (append_spec (l.balanced root h) value).2.2
    next h =>
      rw [members_empty h]
      rfl

theorem members_removePrefix (count : Nat) :
    (l.removePrefix count).map members =
      if l.members.length < count then .error .prefixOutOfBounds
      else .ok (l.members.drop count) := by
  unfold removePrefix
  rw [l.len_eq]
  split
  next => rfl
  split
  next hzero => rw [hzero]; rfl
  split
  next ha =>
    rw [drop_eq_nil_of_le (Nat.le_of_eq ha.symm)]
    rfl
  next hle _ hne =>
    split
    next root h =>
      have hb := l.balanced root h
      have hlt : count < root.len := by
        rw [hb.len_eq, ← members_root h]
        omega
      rw [dif_pos hlt, members_root h]
      exact congrArg Except.ok (prunePrefix_spec hb hlt).2
    next h =>
      rw [members_empty h, drop_nil]
      rfl

theorem members_set (index : Nat) (value : V) :
    (l.set index value).1.members = l.members.set index value ∧
      (l.set index value).2 = l.members[index]? := by
  unfold set
  split
  next h =>
    rw [members_empty h]
    exact ⟨rfl, rfl⟩
  next root h =>
    have hb := l.balanced root h
    split
    next hle =>
      rw [hb.len_eq, ← members_root h] at hle
      rw [set_eq_of_length_le hle, List.getElem?_eq_none hle]
      exact ⟨rfl, rfl⟩
    next hlt =>
      obtain ⟨-, -, hm, hv⟩ := replace_spec hb (Nat.lt_of_not_le hlt) value
      rw [members_root h]
      exact ⟨hm, hv⟩

theorem members_concat (other : ValueList V) :
    (l.concat other).map members =
      if u64Max < l.members.length + other.members.length then .error .lengthOverflow
      else .ok (l.members ++ other.members) := by
  unfold concat
  rw [l.len_eq, other.len_eq]
  split
  next => rfl
  next =>
    split
    next left right hl ho =>
      rw [members_root hl, members_root ho]
      refine congrArg Except.ok ((Index.members_join _ _).trans ?_)
      rw [(copyMembers_spec (other.balanced right ho)).2]
    next ho => rw [members_empty ho, append_nil]; rfl
    next hl _ => rw [members_empty hl]; rfl
    next hl ho => rw [members_empty hl, members_empty ho]; rfl

end ValueList

/-! ## The builder -/

structure ValueListBuilder (V : Type*) where
  assembly : Assembly V Unit
  sound : assembly.Sound ListIndex.summarize

namespace ValueListBuilder

open ListIndex

def new : ValueListBuilder V := ⟨.new, Assembly.sound_new⟩

def len (b : ValueListBuilder V) : Nat := b.assembly.len

variable (b : ValueListBuilder V)

def push (b : ValueListBuilder V) (value : V) : Except CollectionError (ValueListBuilder V) :=
  match hpush : b.assembly.push summarize value with
  | .error e => .error e
  | .ok assembly => .ok ⟨assembly, b.sound.of_push hpush⟩

def finish (b : ValueListBuilder V) : ValueList V :=
  ⟨b.assembly.finish summarize, (Assembly.finish_spec b.sound).1⟩

def members (b : ValueListBuilder V) : List V := b.assembly.members

theorem len_eq : b.len = b.members.length := b.sound.len

theorem members_push (value : V) : (b.push value).map members =
      if u64Max < b.members.length + 1 then .error .lengthOverflow
      else .ok (b.members ++ [value]) := by
  rw [members, ← Assembly.map_push b.sound value]
  unfold push
  split
  next hp => exact (congrArg (Except.map Assembly.members) hp).symm
  next hp => exact (congrArg (Except.map Assembly.members) hp).symm

theorem members_finish : b.finish.members = b.members := (Assembly.finish_spec b.sound).2

end ValueListBuilder

end Xolotl.Types
