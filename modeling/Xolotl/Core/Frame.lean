import Xolotl.Lib.Word
import Xolotl.Core.Program

/-! The shared, bounded continuation arena. Every task keeps a stack of frames
that are linked through one pool; vacated slots form a free list in the same
pool. -/

namespace Xolotl.Core

open List

def noFrame : Nat := Word.u32Max

inductive FrameKind (V E : Type)
  | vacant
  | finish (node : Nat)
  | then_ (next : Nat)
  | catch_ (recover : Nat)
  | finally_ (cleanup : Nat) (input : V)
  | cleaned (outcome : Except E V)
  | condition (condition body left : Nat) (value : V)
  | iteration (condition body left : Nat)
  | context (context : Nat)
  | choose (yes no : Nat) (input : V)
  | bind (slot body : Nat)
  | unbind (slot : Nat) (previous : Option V)
  | continuation (node entry : Nat)

structure Frame (V E : Type) where
  kind : FrameKind V E
  previous : Nat

structure Stack where
  top : Nat := noFrame
  depth : Nat := 0
  deriving DecidableEq, Repr

structure FramePoolMeta where
  nextUnused : Nat := 0
  freeHead : Nat := noFrame
  freeCount : Nat := 0
  deriving DecidableEq, Repr

structure FramePool (V E : Type) extends FramePoolMeta where
  slots : List (Option (Frame V E))

namespace FramePool

variable {V E : Type}

def new (capacity : Nat) : FramePool V E := { slots := List.replicate capacity none }

variable (p : FramePool V E)

def check (stack : Stack) (count maxDepth : Nat) : Except Fault Unit :=
  let available := p.slots.length - p.nextUnused + p.freeCount
  if maxDepth < stack.depth + count ∨ available < count then .error .frames else .ok ()

def push (stack : Stack) (kind : FrameKind V E) (maxDepth : Nat) :
    Except Fault (FramePool V E × Stack) :=
  if maxDepth ≤ stack.depth then .error .frames
  else if p.freeHead = noFrame then
    if p.slots.length ≤ p.nextUnused then .error .frames
    else .ok ({ p with
        slots := p.slots.set p.nextUnused (some { kind, previous := stack.top })
        nextUnused := p.nextUnused + 1 },
      { top := p.nextUnused, depth := stack.depth + 1 })
  else
    match p.slots[p.freeHead]? with
    | some (some frame) => .ok ({ p with
        slots := p.slots.set p.freeHead (some { kind, previous := stack.top })
        freeHead := frame.previous
        freeCount := p.freeCount - 1 },
      { top := p.freeHead, depth := stack.depth + 1 })
    | _ => .error .invalidState

def pop (stack : Stack) : Option (FrameKind V E) × FramePool V E × Stack :=
  if stack.depth = 0 then (none, p, stack)
  else
    match p.slots[stack.top]? with
    | some (some frame) =>
      if stack.top + 1 = p.nextUnused then
        (some frame.kind,
          { p with slots := p.slots.set stack.top none, nextUnused := p.nextUnused - 1 },
          { top := frame.previous, depth := stack.depth - 1 })
      else
        (some frame.kind,
          { p with
            slots := p.slots.set stack.top (some { kind := .vacant, previous := p.freeHead })
            freeHead := stack.top
            freeCount := p.freeCount + 1 },
          { top := frame.previous, depth := stack.depth - 1 })
    | _ => (none, p, stack)

/-- Release every frame of a stack: `while pop().is_some()`, at most `depth` times. -/
def drain (p : FramePool V E) (stack : Stack) : Nat → FramePool V E × Stack
  | 0 => (p, stack)
  | n + 1 =>
    match p.pop stack with
    | (some _, p', stack') => drain p' stack' n
    | (none, p', stack') => (p', stack')

def collect (slots : List (Option (Frame V E))) : Nat → Nat → List (FrameKind V E)
  | _, 0 => []
  | top, n + 1 =>
    match slots[top]? with
    | some (some frame) => frame.kind :: collect slots frame.previous n
    | _ => []

/-! ## Linked slots -/

/-- `is` are the slots linked from `top`, up to the end marker. -/
def Linked (slots : List (Option (Frame V E))) : Nat → List Nat → Prop
  | top, [] => top = noFrame
  | top, i :: is =>
    top = i ∧ ∃ frame, slots[i]? = some (some frame) ∧ Linked slots frame.previous is

variable {slots : List (Option (Frame V E))} {top i n : Nat} {is free : List Nat}
  {p : FramePool V E} {tops : Nat → Stack} {chains : Nat → List Nat}

section

variable (h : Linked slots top is)
include h

theorem Linked.set (hi : i ∉ is) (f : Option (Frame V E)) : Linked (slots.set i f) top is := by
  induction is generalizing top with
  | nil => exact h
  | cons j js ih =>
    obtain ⟨rfl, frame, hf, hl⟩ := h
    rw [mem_cons, not_or] at hi
    refine ⟨rfl, frame, ?_, ih hl hi.2⟩
    rw [List.getElem?_set_ne hi.1]
    exact hf

theorem collect_set (hi : i ∉ is) (f : Option (Frame V E)) :
    collect (slots.set i f) top is.length = collect slots top is.length := by
  induction is generalizing top with
  | nil => rfl
  | cons j js ih =>
    obtain ⟨rfl, frame, hf, hl⟩ := h
    rw [mem_cons, not_or] at hi
    simp only [length_cons, collect, List.getElem?_set_ne hi.1, hf, ih hl hi.2]

theorem collect_append {extra : List (Option (Frame V E))} :
    collect (slots ++ extra) top is.length = collect slots top is.length := by
  induction is generalizing top with
  | nil => rfl
  | cons j js ih =>
    obtain ⟨rfl, frame, hf, hl⟩ := h
    have hj := (List.getElem?_eq_some_iff.mp hf).1
    simp only [length_cons, collect, List.getElem?_append_left hj, hf, ih hl]

theorem length_collect : (collect slots top is.length).length = is.length := by
  induction is generalizing top with
  | nil => rfl
  | cons j js ih =>
    obtain ⟨rfl, frame, hf, hl⟩ := h
    simp only [length_cons, collect, hf, ih hl]

theorem Linked.lt : ∀ i ∈ is, i < slots.length := by
  induction is generalizing top with
  | nil => simp
  | cons j js ih =>
    obtain ⟨rfl, frame, hf, hl⟩ := h
    intro i hi
    rcases mem_cons.mp hi with rfl | hi
    · exact (List.getElem?_eq_some_iff.mp hf).1
    · exact ih hl i hi

end

/-- The slots in use are exactly those of the stacks and of the free list. -/
structure Arranged (p : FramePool V E) (tops : Nat → Stack) (chains : Nat → List Nat)
    (free : List Nat) : Prop where
  capacity : p.slots.length ≤ noFrame
  used : p.nextUnused ≤ p.slots.length
  stack : ∀ i, Linked p.slots (tops i).top (chains i)
  depth : ∀ i, (tops i).depth = (chains i).length
  freeList : Linked p.slots p.freeHead free
  freeCount : p.freeCount = free.length
  nodup : ∀ i, (chains i).Nodup
  free_nodup : free.Nodup
  disjoint : ∀ i j, i ≠ j → List.Disjoint (chains i) (chains j)
  free_disjoint : ∀ i, List.Disjoint (chains i) free
  below : ∀ i, ∀ x ∈ chains i, x < p.nextUnused
  free_below : ∀ x ∈ free, x < p.nextUnused
  cover : ∀ x, x < p.nextUnused → x ∈ free ∨ ∃ i, x ∈ chains i

theorem Arranged.free_le (h : Arranged p tops chains free) : free.length ≤ p.nextUnused := by
  have hs : free.toFinset ⊆ Finset.range p.nextUnused := by
    intro x hx
    exact Finset.mem_range.mpr (h.free_below x (mem_toFinset.mp hx))
  have hc := Finset.card_le_card hs
  rwa [toFinset_card_of_nodup h.free_nodup, Finset.card_range] at hc

theorem arranged_new (hn : n ≤ noFrame) :
    Arranged (new n : FramePool V E) (fun _ => {}) (fun _ => []) [] := by
  constructor <;> simp [new, Linked, hn]

theorem Arranged.freeHead_eq_iff (h : Arranged p tops chains free) :
    p.freeHead = noFrame ↔ free = [] := by
  constructor
  · intro hf
    cases free with
    | nil => rfl
    | cons j js =>
      have hj := h.freeList.lt j (mem_cons_self ..)
      have hc := h.capacity
      have hh := h.freeList.1
      omega
  · rintro rfl
    exact h.freeList

end FramePool
end Xolotl.Core
