import Xolotl.Core.Frame

/-! The frame pool together with the stack of every task slot. The bundle
carries the arrangement of the slots, so a reader of it sees independent bounded
stacks: `stack`, the number of `live` frames and the `capacity`. -/

namespace Xolotl.Core

open List Function

namespace FramePool

variable {V E : Type}

def live (p : FramePool V E) : Nat := p.nextUnused - p.freeCount

def stackOf (p : FramePool V E) (tops : Nat → Stack) (i : Nat) : List (FrameKind V E) :=
  collect p.slots (tops i).top (tops i).depth

structure Replaced (p p' : FramePool V E) (tops : Nat → Stack) (i : Nat) (stack' : Stack)
    (frames : List (FrameKind V E)) : Prop where
  arranged : ∃ chains free, Arranged p' (Function.update tops i stack') chains free
  stackOf : p'.stackOf (Function.update tops i stack') =
    Function.update (p.stackOf tops) i frames
  capacity : p'.slots.length = p.slots.length
  live : p'.live + (p.stackOf tops i).length = p.live + frames.length

variable {p : FramePool V E} {tops : Nat → Stack} {chains : Nat → List Nat} {free : List Nat}
  (h : Arranged p tops chains free)
include h

theorem Arranged.length_stackOf (i : Nat) : (p.stackOf tops i).length = (tops i).depth := by
  rw [stackOf, h.depth i]
  exact length_collect (h.stack i)

theorem Arranged.stackOf_set {x j : Nat} (hx : x ∉ chains j) (f : Option (Frame V E)) :
    collect (p.slots.set x f) (tops j).top (tops j).depth = p.stackOf tops j := by
  rw [stackOf, h.depth j]
  exact collect_set (h.stack j) hx f

variable {free' is : List Nat} {i x n head count : Nat}

omit h in
theorem forall_update {α β : Type} {P : α → β → Prop} {f : Nat → α} {g : Nat → β} {a : α} {b : β}
    (hi : P a b) (h : ∀ j, j ≠ i → P (f j) (g j)) (j : Nat) :
    P (update f i a j) (update g i b j) := by
  by_cases hj : j = i
  · subst hj
    simpa using hi
  · simpa [hj] using h j hj

variable {i maxDepth : Nat} {kind : FrameKind V E}

theorem Arranged.grow
    (hx : ∀ j, x ∉ chains j) (hln : x < p.slots.length) (hl : Linked p.slots head free')
    (hc : count = free'.length) (hnd : free'.Nodup)
    (hfr : ∀ y, y ∈ free' ↔ y ∈ free ∧ y ≠ x) (hn : n ≤ p.slots.length)
    (hu : ∀ y, y < n ↔ y < p.nextUnused ∨ y = x)
    (hli : n + p.freeCount = p.nextUnused + count + 1) :
    Replaced p { p with
        slots := p.slots.set x (some { kind, previous := (tops i).top })
        nextUnused := n, freeHead := head, freeCount := count }
      tops i { top := x, depth := (tops i).depth + 1 } (kind :: p.stackOf tops i) := by
  have hx' : x ∉ free' := fun hm => ((hfr x).mp hm).2 rfl
  have hme : ∀ j y, y ∈ Function.update chains i (x :: chains i) j ↔
      y ∈ chains j ∨ j = i ∧ y = x := by
    intro j y
    by_cases hj : j = i
    · subst hj
      simp [or_comm]
    · simp [hj]
  have ha : Arranged { p with
        slots := p.slots.set x (some { kind, previous := (tops i).top })
        nextUnused := n, freeHead := head, freeCount := count }
      (Function.update tops i { top := x, depth := (tops i).depth + 1 })
      (Function.update chains i (x :: chains i)) free' := by
    constructor
    · simpa using h.capacity
    · simpa using hn
    · refine forall_update (P := fun stack => Linked _ (Stack.top stack)) ?_ fun j _ =>
        (h.stack j).set (hx j) _
      exact ⟨rfl, _, List.getElem?_set_self hln, (h.stack i).set (hx i) _⟩
    · refine forall_update (P := fun stack chain => Stack.depth stack = length chain) ?_
        fun j _ => h.depth j
      rw [length_cons, h.depth i]
    · exact hl.set hx' _
    · exact hc
    · exact (forall_update_iff chains fun _ => List.Nodup).mpr
        ⟨nodup_cons.mpr ⟨hx i, h.nodup i⟩, fun j _ => h.nodup j⟩
    · exact hnd
    · intro j k hjk y hyj hyk
      rcases (hme j y).mp hyj with hold | ⟨rfl, rfl⟩
      · rcases (hme k y).mp hyk with hyk | ⟨-, rfl⟩
        · exact h.disjoint j k hjk hold hyk
        · exact hx j hold
      · rcases (hme k y).mp hyk with hyk | ⟨rfl, -⟩
        · exact hx k hyk
        · exact hjk rfl
    · intro j y hyj hyf
      rcases (hme j y).mp hyj with hyj | ⟨-, rfl⟩
      · exact h.free_disjoint j hyj ((hfr y).mp hyf).1
      · exact hx' hyf
    · exact fun j y hyj => (hu y).mpr (((hme j y).mp hyj).imp (h.below j y) And.right)
    · exact fun y hy => (hu y).mpr (.inl (h.free_below y ((hfr y).mp hy).1))
    · intro y hy
      by_cases hyx : y = x
      · exact .inr ⟨i, (hme i y).mpr (.inr ⟨rfl, hyx⟩)⟩
      · rcases h.cover y (((hu y).mp hy).resolve_right hyx) with hf | ⟨j, hj⟩
        · exact .inl ((hfr y).mpr ⟨hf, hyx⟩)
        · exact .inr ⟨j, (hme j y).mpr (.inl hj)⟩
  refine ⟨⟨_, free', ha⟩, ?_, by simp, ?_⟩
  · funext j
    by_cases hj : j = i
    · subst hj
      simp only [stackOf, update_self, collect, List.getElem?_set_self hln]
      rw [h.stackOf_set (hx j)]
      rfl
    · simp only [stackOf, update_of_ne hj]
      exact h.stackOf_set (hx j) _
  · have hle := h.free_le
    rw [← h.freeCount] at hle
    simp only [live, length_cons]
    omega

theorem Arranged.shrink {frame : Frame V E} {f : Option (Frame V E)} (hc : chains i = x :: is)
    (hfm : p.slots[x]? = some (some frame)) (hp : Linked p.slots frame.previous is)
    (hl : Linked (p.slots.set x f) head free') (hcn : count = free'.length)
    (hno : free'.Nodup) (hfr : ∀ y, y ∈ free' ↔ y ∈ free ∨ y = x ∧ x < n)
    (hn : n ≤ p.nextUnused) (hu : ∀ y, y ≠ x → y < p.nextUnused → y < n)
    (hli : n + p.freeCount + 1 = p.nextUnused + count) :
    Replaced p { p with
      slots := p.slots.set x f, nextUnused := n, freeHead := head, freeCount := count }
      tops i { top := frame.previous, depth := (tops i).depth - 1 }
      (collect p.slots frame.previous is.length) := by
  have hm : x ∈ chains i := hc ▸ mem_cons_self ..
  have hnd := h.nodup i
  rw [hc, nodup_cons] at hnd
  have ho : ∀ j, j ≠ i → x ∉ chains j := fun j hj hx => h.disjoint j i hj hx hm
  have hd : (tops i).depth = is.length + 1 := by rw [h.depth i, hc, length_cons]
  have hr : ∀ j y, y ∈ Function.update chains i is j ↔ y ∈ chains j ∧ y ≠ x := by
    intro j y
    by_cases hj : j = i
    · subst hj
      rw [update_self, hc, mem_cons]
      exact ⟨fun hy => ⟨.inr hy, fun hyx => hnd.1 (hyx ▸ hy)⟩, fun hy => hy.1.resolve_left hy.2⟩
    · rw [update_of_ne hj]
      exact ⟨fun hy => ⟨hy, fun hyx => ho j hj (hyx ▸ hy)⟩, And.left⟩
  have ha : Arranged
      { p with slots := p.slots.set x f, nextUnused := n, freeHead := head, freeCount := count }
      (Function.update tops i { top := frame.previous, depth := (tops i).depth - 1 })
      (Function.update chains i is) free' := by
    constructor
    · simpa using h.capacity
    · simpa using hn.trans h.used
    · exact forall_update (P := fun stack => Linked _ (Stack.top stack)) (hp.set hnd.1 _)
        fun j hj => (h.stack j).set (ho j hj) _
    · refine forall_update (P := fun stack chain => Stack.depth stack = length chain) ?_
        fun j _ => h.depth j
      rw [hd, Nat.add_sub_cancel]
    · exact hl
    · exact hcn
    · exact (forall_update_iff chains fun _ => List.Nodup).mpr ⟨hnd.2, fun j _ => h.nodup j⟩
    · exact hno
    · exact fun j k hjk y hyj hyk =>
        h.disjoint j k hjk ((hr j y).mp hyj).1 ((hr k y).mp hyk).1
    · intro j y hyj hyf
      obtain ⟨hy, hne⟩ := (hr j y).mp hyj
      exact h.free_disjoint j hy (((hfr y).mp hyf).resolve_right fun hyx => hne hyx.1)
    · intro j y hy
      obtain ⟨hy, hne⟩ := (hr j y).mp hy
      exact hu y hne (h.below j y hy)
    · intro y hy
      rcases (hfr y).mp hy with hy | ⟨rfl, hxn⟩
      · exact hu y (fun hyx => h.free_disjoint i hm (hyx ▸ hy)) (h.free_below y hy)
      · exact hxn
    · intro y hy
      by_cases hyx : y = x
      · exact .inl ((hfr y).mpr (.inr ⟨hyx, hyx ▸ hy⟩))
      · rcases h.cover y (lt_of_lt_of_le hy hn) with hf | ⟨j, hj⟩
        · exact .inl ((hfr y).mpr (.inl hf))
        · exact .inr ⟨j, (hr j y).mpr ⟨hj, hyx⟩⟩
  refine ⟨⟨_, free', ha⟩, ?_, by simp, ?_⟩
  · funext j
    by_cases hj : j = i
    · subst hj
      simp only [stackOf, update_self]
      rw [hd, Nat.add_sub_cancel, collect_set hp hnd.1]
    · simp only [stackOf, update_of_ne hj]
      exact h.stackOf_set (ho j hj) f
  · have hle := ha.free_le
    have hln : (p.stackOf tops i).length = is.length + 1 := (h.length_stackOf i).trans hd
    rw [length_collect hp]
    simp only [live] at hle ⊢
    omega

theorem Arranged.push_ok (i : Nat) (kind : FrameKind V E)
    (hd : (tops i).depth < maxDepth) (hl : p.live < p.slots.length) :
    ∃ p' stack', p.push (tops i) kind maxDepth = .ok (p', stack') ∧
      Replaced p p' tops i stack' (kind :: p.stackOf tops i) := by
  have hc := h.freeCount
  cases free with
  | nil =>
    have hh := h.freeHead_eq_iff.mpr rfl
    have hr : p.nextUnused < p.slots.length := by
      simp only [live, hc] at hl
      exact hl
    have hx : ∀ j, p.nextUnused ∉ chains j := fun j hj => absurd (h.below j _ hj) (lt_irrefl _)
    refine ⟨_, _, ?_, h.grow hx hr h.freeList hc nodup_nil (by simp) hr
      (fun y => Nat.lt_succ_iff_lt_or_eq) (by omega)⟩
    rw [push, if_neg (by omega), if_pos hh, if_neg (by omega)]
  | cons x js =>
    have hne : ¬ p.freeHead = noFrame := by simp [h.freeHead_eq_iff]
    obtain ⟨hh, frame, hfr, hli⟩ := h.freeList
    have hx : ∀ j, x ∉ chains j := fun j hj => h.free_disjoint j hj (mem_cons_self ..)
    have hle := (List.getElem?_eq_some_iff.mp hfr).1
    have hnd := nodup_cons.mp h.free_nodup
    have hxn := h.free_below x (mem_cons_self ..)
    have hf : ∀ y, y ∈ js ↔ y ∈ x :: js ∧ y ≠ x := by
      intro y
      rw [mem_cons]
      exact ⟨fun hy => ⟨.inr hy, fun hyx => hnd.1 (hyx ▸ hy)⟩, fun hy => hy.1.resolve_left hy.2⟩
    have hc' : p.freeCount - 1 = js.length := by rw [hc, length_cons, Nat.add_sub_cancel]
    rw [length_cons] at hc
    refine ⟨_, _, ?_, h.grow hx hle hli hc' hnd.2 hf h.used
      (fun y => ⟨.inl, fun hy => hy.elim id fun hy => hy ▸ hxn⟩) (by omega)⟩
    rw [push, if_neg (by omega), if_neg hne, hh, hfr]

theorem Arranged.push_error (i : Nat) (kind : FrameKind V E)
    (hf : ¬ ((tops i).depth < maxDepth ∧ p.live < p.slots.length)) :
    p.push (tops i) kind maxDepth = .error .frames := by
  have hc := h.freeCount
  have hle := h.free_le
  have hu := h.used
  unfold push
  by_cases hd : (tops i).depth < maxDepth
  · have hli : ¬ p.live < p.slots.length := fun hl => hf ⟨hd, hl⟩
    have hnil : free = [] := by
      rw [← length_eq_zero_iff]
      simp only [live] at hli
      omega
    have hh := h.freeHead_eq_iff.mpr hnil
    simp only [live] at hli
    rw [if_neg (by omega), if_pos hh, if_pos (by omega)]
  · rw [if_pos (by omega)]

theorem Arranged.pop_empty (hi : p.stackOf tops i = []) : p.pop (tops i) = (none, p, tops i) := by
  have hl := h.length_stackOf i
  rw [hi, length_nil] at hl
  rw [pop, if_pos hl.symm]

theorem Arranged.pop_cons {rest : List (FrameKind V E)} (hi : p.stackOf tops i = kind :: rest) :
    ∃ p' stack', p.pop (tops i) = (some kind, p', stack') ∧ Replaced p p' tops i stack' rest := by
  have hd := h.length_stackOf i
  rw [hi, length_cons] at hd
  have hch := h.stack i
  have hde := h.depth i
  rcases hc : chains i with _ | ⟨x, is⟩
  · rw [hc, length_nil] at hde
    omega
  · rw [hc] at hch hde
    obtain ⟨ht, frame, hf, hp⟩ := hch
    obtain ⟨rfl, rfl⟩ : frame.kind = kind ∧ collect p.slots frame.previous is.length = rest := by
      rw [stackOf, hde, ht, length_cons, collect, hf] at hi
      exact List.cons.inj hi
    have hm : x ∈ chains i := hc ▸ mem_cons_self ..
    have hx : x ∉ free := h.free_disjoint i hm
    have hxn := h.below i x hm
    have hle := (List.getElem?_eq_some_iff.mp hf).1
    have hpos : ¬ (tops i).depth = 0 := by omega
    by_cases hlast : x + 1 = p.nextUnused
    · refine ⟨_, _, ?_, h.shrink (n := p.nextUnused - 1) hc hf hp (h.freeList.set hx none)
        h.freeCount h.free_nodup (fun y => ?_) (Nat.sub_le ..) (by omega) (by omega)⟩
      · rw [pop, if_neg hpos, ht]
        simp only [hf, if_pos hlast]
      · have hxn : ¬ x < p.nextUnused - 1 := by omega
        simp [hxn]
    · have hl : Linked (p.slots.set x (some ⟨.vacant, p.freeHead⟩)) x (x :: free) :=
        ⟨rfl, _, List.getElem?_set_self hle, h.freeList.set hx _⟩
      refine ⟨_, _, ?_, h.shrink hc hf hp hl
        (by rw [length_cons, ← h.freeCount]) (nodup_cons.mpr ⟨hx, h.free_nodup⟩)
        (fun y => by simp [hxn, or_comm]) le_rfl (fun y _ hy => hy) (Nat.add_assoc ..)⟩
      rw [pop, if_neg hpos, ht]
      simp only [hf, if_neg hlast]

theorem Arranged.check_eq (i count maxDepth : Nat) : p.check (tops i) count maxDepth =
      if (tops i).depth + count ≤ maxDepth ∧ p.live + count ≤ p.slots.length then .ok ()
      else .error .frames := by
  have hc := h.freeCount
  have hle := h.free_le
  have hu := h.used
  have hl : p.live = p.nextUnused - p.freeCount := rfl
  unfold check
  split
  · next hf => rw [if_neg (by omega)]
  · next hr => rw [if_pos (by omega)]

theorem Replaced.refl (i : Nat) : Replaced p p tops i (tops i) (p.stackOf tops i) := by
  refine ⟨⟨chains, free, ?_⟩, ?_, rfl, rfl⟩
  · rw [update_eq_self]
    exact h
  · rw [update_eq_self, update_eq_self]

omit h in
theorem Replaced.trans {p' p'' : FramePool V E} {s' s'' : Stack}
    {frames frames' : List (FrameKind V E)} (h : Replaced p p' tops i s' frames)
    (h' : Replaced p' p'' (Function.update tops i s') i s'' frames') :
    Replaced p p'' tops i s'' frames' := by
  have ht := h'.arranged
  have hs := h'.stackOf
  rw [update_idem] at ht hs
  refine ⟨ht, ?_, h'.capacity.trans h.capacity, ?_⟩
  · rw [hs, h.stackOf, update_idem]
  · have h₁ := h.live
    have h₂ := h'.live
    rw [h.stackOf, update_self] at h₂
    omega

theorem Arranged.drain_eq (i n : Nat) (hn : (tops i).depth ≤ n) :
    Replaced p (p.drain (tops i) n).1 tops i (p.drain (tops i) n).2 [] := by
  induction n generalizing p tops chains free with
  | zero =>
    have hl := h.length_stackOf i
    have hnil : p.stackOf tops i = [] := length_eq_zero_iff.mp (by omega)
    have hrefl := Replaced.refl h i
    rw [hnil] at hrefl
    exact hrefl
  | succ n ih =>
    rcases hs : p.stackOf tops i with _ | ⟨kind, rest⟩
    · rw [drain, h.pop_empty hs, ← hs]
      exact Replaced.refl h i
    · obtain ⟨p', stack', hp, hr⟩ := h.pop_cons hs
      obtain ⟨chains', free', ha⟩ := hr.arranged
      have hl := h.length_stackOf i
      have hl' := ha.length_stackOf i
      rw [hr.stackOf, update_self, update_self] at hl'
      rw [hs, length_cons] at hl
      have hd := ih ha (by rw [update_self]; omega)
      rw [update_self] at hd
      rw [drain, hp]
      exact hr.trans hd

end FramePool

/-! ## Stacks of all task slots -/

/-- The pool with the stack of every task slot, arranged without overlap. -/
structure Frames (V E : Type) where
  pool : FramePool V E
  tops : Nat → Stack
  arranged : ∃ chains free, pool.Arranged tops chains free

namespace Frames

variable {V E : Type}

def new (capacity : Nat) (h : capacity ≤ noFrame) : Frames V E :=
  ⟨.new capacity, fun _ => {}, _, _, FramePool.arranged_new h⟩

def stack (f : Frames V E) (i : Nat) : List (FrameKind V E) := f.pool.stackOf f.tops i

def live (f : Frames V E) : Nat := f.pool.live

def capacity (f : Frames V E) : Nat := f.pool.slots.length

variable {f : Frames V E} {i maxDepth : Nat}

theorem push_arranged {kind : FrameKind V E} {p' : FramePool V E} {stack' : Stack}
    (h : f.pool.push (f.tops i) kind maxDepth = .ok (p', stack')) :
    f.pool.Replaced p' f.tops i stack' (kind :: f.stack i) := by
  obtain ⟨chains, free, ha⟩ := f.arranged
  by_cases hro : (f.tops i).depth < maxDepth ∧ f.pool.live < f.pool.slots.length
  · obtain ⟨p₂, s₂, hp, hr⟩ := ha.push_ok i kind hro.1 hro.2
    rw [h] at hp
    cases hp
    exact hr
  · rw [ha.push_error i kind hro] at h
    cases h

theorem pop_arranged (f : Frames V E) (i : Nat) :
    f.pool.Replaced (f.pool.pop (f.tops i)).2.1 f.tops i (f.pool.pop (f.tops i)).2.2
      (f.stack i).tail ∧ (f.pool.pop (f.tops i)).1 = (f.stack i).head? := by
  obtain ⟨chains, free, ha⟩ := f.arranged
  rcases hs : f.stack i with _ | ⟨kind, rest⟩
  · rw [ha.pop_empty hs]
    have hrefl := FramePool.Replaced.refl ha i
    rw [show f.pool.stackOf f.tops i = [] from hs] at hrefl
    exact ⟨hrefl, rfl⟩
  · obtain ⟨p', stack', hp, hr⟩ := ha.pop_cons hs
    rw [hp]
    exact ⟨hr, rfl⟩

theorem drain_arranged (f : Frames V E) (i : Nat) :
    f.pool.Replaced (f.pool.drain (f.tops i) (f.tops i).depth).1 f.tops i
      (f.pool.drain (f.tops i) (f.tops i).depth).2 [] := by
  obtain ⟨chains, free, ha⟩ := f.arranged
  exact ha.drain_eq i _ (le_refl _)

def check (f : Frames V E) (i count maxDepth : Nat) : Except Fault Unit :=
  f.pool.check (f.tops i) count maxDepth

def push (f : Frames V E) (i : Nat) (kind : FrameKind V E) (maxDepth : Nat) :
    Except Fault (Frames V E) :=
  match h : f.pool.push (f.tops i) kind maxDepth with
  | .ok (pool, stack) => .ok ⟨pool, Function.update f.tops i stack, (push_arranged h).arranged⟩
  | .error e => .error e

def pop (f : Frames V E) (i : Nat) : Option (FrameKind V E) × Frames V E :=
  ((f.pool.pop (f.tops i)).1, ⟨(f.pool.pop (f.tops i)).2.1,
    Function.update f.tops i (f.pool.pop (f.tops i)).2.2, (f.pop_arranged i).1.arranged⟩)

def drain (f : Frames V E) (i : Nat) : Frames V E :=
  ⟨(f.pool.drain (f.tops i) (f.tops i).depth).1,
    Function.update f.tops i (f.pool.drain (f.tops i) (f.tops i).depth).2,
    (f.drain_arranged i).arranged⟩

structure Sets (f f' : Frames V E) (i : Nat) (frames : List (FrameKind V E)) : Prop where
  stack : f'.stack = Function.update f.stack i frames
  capacity : f'.capacity = f.capacity
  live : f'.live + (f.stack i).length = f.live + frames.length

theorem Sets.refl (f : Frames V E) (i : Nat) : Sets f f i (f.stack i) :=
  ⟨(update_eq_self ..).symm, rfl, rfl⟩

theorem Sets.trans {f' f'' : Frames V E} {frames frames' : List (FrameKind V E)}
    (h : Sets f f' i frames) (h' : Sets f' f'' i frames') : Sets f f'' i frames' := by
  refine ⟨?_, h'.capacity.trans h.capacity, ?_⟩
  · rw [h'.stack, h.stack, update_idem]
  · have h₁ := h.live
    have h₂ := h'.live
    rw [h.stack, update_self] at h₂
    omega

def Fits (f : Frames V E) (i count maxDepth : Nat) : Prop :=
  (f.stack i).length + count ≤ maxDepth ∧ f.live + count ≤ f.capacity

instance (f : Frames V E) (i count maxDepth : Nat) : Decidable (f.Fits i count maxDepth) :=
  inferInstanceAs (Decidable (_ ∧ _))

theorem depth_eq (f : Frames V E) (i : Nat) : (f.tops i).depth = (f.stack i).length := by
  obtain ⟨chains, free, ha⟩ := f.arranged
  exact (ha.length_stackOf i).symm

theorem check_eq (f : Frames V E) (i count maxDepth : Nat) :
    f.check i count maxDepth = if f.Fits i count maxDepth then .ok () else .error .frames := by
  obtain ⟨chains, free, ha⟩ := f.arranged
  rw [check, ha.check_eq, depth_eq]
  rfl

theorem push_ok (kind : FrameKind V E) (h : f.Fits i 1 maxDepth) :
    ∃ f', f.push i kind maxDepth = .ok f' ∧ Sets f f' i (kind :: f.stack i) := by
  obtain ⟨chains, free, ha⟩ := f.arranged
  obtain ⟨p', stack', hp, hr⟩ := ha.push_ok i kind (by rw [depth_eq]; exact h.1) h.2
  refine ⟨⟨p', Function.update f.tops i stack', hr.arranged⟩, ?_, hr.stackOf, hr.capacity, hr.live⟩
  rw [push]
  split
  · next heq =>
    rw [hp] at heq
    cases heq
    rfl
  · next heq =>
    rw [hp] at heq
    cases heq

theorem push_error (kind : FrameKind V E)
    (h : ¬ f.Fits i 1 maxDepth) : f.push i kind maxDepth = .error .frames := by
  obtain ⟨chains, free, ha⟩ := f.arranged
  have he := ha.push_error i kind (by rw [depth_eq]; exact h)
  rw [push]
  split
  · next heq =>
    rw [he] at heq
    cases heq
  · next heq =>
    rw [he] at heq
    cases heq
    rfl

theorem pop_eq (f : Frames V E) (i : Nat) :
    (f.pop i).1 = (f.stack i).head? ∧ Sets f (f.pop i).2 i (f.stack i).tail := by
  obtain ⟨hr, hk⟩ := f.pop_arranged i
  exact ⟨hk, hr.stackOf, hr.capacity, hr.live⟩

theorem drain_eq (f : Frames V E) (i : Nat) : Sets f (f.drain i) i [] := by
  have hr := f.drain_arranged i
  exact ⟨hr.stackOf, hr.capacity, hr.live⟩

theorem live_le (f : Frames V E) : f.live ≤ f.capacity := by
  obtain ⟨chains, free, ha⟩ := f.arranged
  have hu := ha.used
  simp only [live, capacity, FramePool.live]
  omega

/-! ## Private stacks -/

def pushAll (f : Frames V E) (i : Nat) (kinds : List (FrameKind V E)) (maxDepth : Nat) :
    Except Fault (Frames V E) := kinds.foldlM (fun f kind => f.push i kind maxDepth) f

theorem pushAll_iff (f : Frames V E) (i : Nat) (kinds : List (FrameKind V E)) (maxDepth : Nat) :
    (∃ f', f.pushAll i kinds maxDepth = .ok f') ↔ kinds = [] ∨ f.Fits i kinds.length maxDepth := by
  induction kinds generalizing f with
  | nil => exact ⟨fun _ => .inl rfl, fun _ => ⟨f, rfl⟩⟩
  | cons kind kinds ih =>
    rw [pushAll, foldlM_cons]
    by_cases h : f.Fits i 1 maxDepth
    · obtain ⟨f', hp, hs⟩ := push_ok kind h
      have hf : f'.Fits i kinds.length maxDepth ↔ f.Fits i (kinds.length + 1) maxDepth := by
        have hl := hs.live
        rw [Fits, Fits, hs.stack, update_self, hs.capacity]
        rw [length_cons] at hl ⊢
        omega
      rw [hp]
      refine (ih f').trans ?_
      rw [hf, length_cons]
      refine ⟨fun h' => .inr (h'.elim (fun hnil => ?_) id), fun h' => .inr (h'.resolve_left nofun)⟩
      rw [hnil]
      exact h
    · rw [push_error kind h]
      refine ⟨nofun, fun h' => absurd (h'.resolve_left nofun) fun hf => h ?_⟩
      rw [length_cons] at hf
      exact ⟨by have := hf.1; omega, by have := hf.2; omega⟩

inductive Operation (V E : Type)
  | push (task : Nat) (kind : FrameKind V E) (maxDepth : Nat)
  | pop (task : Nat)

/-- What a task knows of its stack: the frames it pushed and the answers of its pops. -/
inductive Seen (V E : Type)
  | pushed (kind : FrameKind V E)
  | popped (answer : Option (FrameKind V E))

/-- A history, the newest entry first, that a private stack gives. -/
inductive Lifo : List (Seen V E) → List (FrameKind V E) → Prop
  | nil : Lifo [] []
  | push {seen : List (Seen V E)} {stack : List (FrameKind V E)} (kind : FrameKind V E) :
      Lifo seen stack → Lifo (.pushed kind :: seen) (kind :: stack)
  | pop {seen : List (Seen V E)} {stack : List (FrameKind V E)} :
      Lifo seen stack → Lifo (.popped stack.head? :: seen) stack.tail

def step : Frames V E × (Nat → List (Seen V E)) → Operation V E →
    Frames V E × (Nat → List (Seen V E))
  | (f, seen), .push i kind maxDepth =>
    match f.push i kind maxDepth with
    | .ok f => (f, update seen i (.pushed kind :: seen i))
    | .error _ => (f, seen)
  | (f, seen), .pop i => ((f.pop i).2, update seen i (.popped (f.pop i).1 :: seen i))

def run (f : Frames V E) (ops : List (Operation V E)) : Frames V E × (Nat → List (Seen V E)) :=
  ops.foldl step (f, fun _ => [])

theorem lifo_step {s : Frames V E × (Nat → List (Seen V E))} (h : ∀ i, Lifo (s.2 i) (s.1.stack i))
    (op : Operation V E) : ∀ i, Lifo ((step s op).2 i) ((step s op).1.stack i) := by
  obtain ⟨f, seen⟩ := s
  cases op with
  | push j kind maxDepth =>
    by_cases hf : f.Fits j 1 maxDepth
    · obtain ⟨f', hp, hs⟩ := push_ok kind hf
      simp only [step, hp, hs.stack]
      exact FramePool.forall_update ((h j).push kind) fun i _ => h i
    · simp only [step, push_error kind hf]
      exact h
  | pop j =>
    obtain ⟨ha, hs⟩ := f.pop_eq j
    simp only [step, ha, hs.stack]
    exact FramePool.forall_update (h j).pop fun i _ => h i

theorem push_after_pop {kind : FrameKind V E} (h : (f.pop i).1 = some kind)
    (hd : (f.stack i).length ≤ maxDepth) (next : FrameKind V E) :
    ∃ f', (f.pop i).2.push i next maxDepth = .ok f' := by
  obtain ⟨ha, hs⟩ := f.pop_eq i
  obtain ⟨rest, hst⟩ : ∃ rest, f.stack i = kind :: rest := by
    rw [h] at ha
    exact head?_eq_some_iff.mp ha.symm
  have hl := hs.live
  have hle := f.live_le
  have hf : (f.pop i).2.Fits i 1 maxDepth := by
    rw [Fits, hs.stack, update_self, hs.capacity]
    rw [hst] at hl hd ⊢
    simp only [tail_cons, length_cons] at hl hd ⊢
    omega
  exact (push_ok next hf).imp fun _ hp => hp.1

/-- What the tasks see of the shared pool: stacks of their own. -/
structure Private (s : Frames V E × (Nat → List (Seen V E))) : Prop where
  lifo : ∀ i, Lifo (s.2 i) (s.1.stack i)
  arranged : ∃ chains free, s.1.pool.Arranged s.1.tops chains free
  check : ∀ i kinds maxDepth, kinds ≠ [] → (s.1.check i kinds.length maxDepth = .ok () ↔
    ∃ f, s.1.pushAll i kinds maxDepth = .ok f)
  push : ∀ i kind maxDepth next, (s.1.pop i).1 = some kind → (s.1.stack i).length ≤ maxDepth →
    ∃ f, (s.1.pop i).2.push i next maxDepth = .ok f

theorem shared_pool_is_private_stacks (capacity : { n // n ≤ noFrame })
    (ops : List (Operation V E)) : Private ((new capacity capacity.2).run ops) where
  lifo := foldlRecOn (motive := fun s => ∀ i, Lifo (s.2 i) (s.1.stack i)) ops step (fun _ => .nil)
    fun _ h op _ => lifo_step h op
  arranged := Frames.arranged _
  check i kinds maxDepth hne := by
    rw [pushAll_iff, check_eq, or_iff_right hne]
    split <;> simp [*]
  push _ _ _ next h hdep := push_after_pop h hdep next

theorem push_after_empty_pop_fails :
    ((new 0 (Nat.zero_le _) : Frames Unit Unit).pop 0).1.isNone ∧
      (((new 0 (Nat.zero_le _) : Frames Unit Unit).pop 0).2.push 0 .vacant 1).toOption.isNone := by
  decide

end Frames

end Xolotl.Core
