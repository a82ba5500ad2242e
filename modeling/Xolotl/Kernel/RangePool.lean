import Xolotl.Lib.Word

/-! The arena's range allocator: gaps that merge with whatever they touch. -/

namespace Xolotl.Kernel

open List Word

structure Range where
  start : Nat
  stop : Nat
  deriving DecidableEq

def Range.len (range : Range) : Nat := range.stop - range.start

/-- Everything below `stop` is handed out, except the gaps in `free`. -/
structure RangePool where
  stop : Nat
  free : List Range
  deriving DecidableEq

namespace RangePool

def new (stop : Nat) : RangePool := ⟨stop, []⟩

def bestFit (pool : RangePool) (count : Nat) : Option (Range × Nat) :=
  (pool.free.zipIdx.filter fun gap => count ≤ gap.1.len).argmin fun gap => gap.1.len

def cut (free : List Range) (gap : Range) (index count : Nat) : List Range :=
  if gap.stop ≤ gap.start + count then free.eraseIdx index
  else free.set index ⟨gap.start + count, gap.stop⟩

def reserve (pool : RangePool) (count limit : Nat) : RangePool × Option Range :=
  if count = 0 then (pool, some ⟨0, 0⟩)
  else
    match pool.bestFit count with
    | some (gap, index) =>
      ({ pool with free := cut pool.free gap index count }, some ⟨gap.start, gap.start + count⟩)
    | none =>
      if pool.stop + count ≤ u64Max ∧ pool.stop + count ≤ limit then
        (⟨pool.stop + count, pool.free⟩, some ⟨pool.stop, pool.stop + count⟩)
      else (pool, none)

def joinLeft (before : List Range) (range : Range) : List Range × Range :=
  match before.getLast? with
  | some gap =>
    if gap.stop = range.start then (before.dropLast, ⟨gap.start, range.stop⟩) else (before, range)
  | none => (before, range)

def joinRight (range : Range) : List Range → Range × List Range
  | [] => (range, [])
  | gap :: after =>
    if range.stop = gap.start then (⟨range.start, gap.stop⟩, after) else (range, gap :: after)

def release (pool : RangePool) (range : Range) : RangePool :=
  if range.stop ≤ range.start then pool
  else
    -- The partition point: the gaps in front of the range, and the others.
    let left := joinLeft (pool.free.filter (·.start < range.start)) range
    let right := joinRight left.2 (pool.free.filter (range.start ≤ ·.start))
    if right.1.stop = pool.stop then ⟨right.1.start, left.1 ++ right.2⟩
    else { pool with free := left.1 ++ right.1 :: right.2 }

/-! ## Live ranges and gaps tile the pool -/

def cover (ranges : List Range) (x : Nat) : Nat :=
  ranges.countP fun r => r.start ≤ x ∧ x < r.stop

def Apart (ranges : List Range) : Prop :=
  ranges.Pairwise (·.stop < ·.start) ∧ ∀ r ∈ ranges, r.start < r.stop

/-- Every place below the end is in exactly one gap or live range, and no gap touches the end. -/
structure Tiled (pool : RangePool) (live : List Range) : Prop where
  apart : Apart pool.free
  below : ∀ gap ∈ pool.free, gap.stop < pool.stop
  once : ∀ x, cover live x + cover pool.free x = if x < pool.stop then 1 else 0

variable {pool : RangePool} {live before after : List Range} {range gap : Range}
  {count limit stop index x : Nat}

@[grind =] theorem cover_nil : cover [] x = 0 := rfl

@[grind =] theorem cover_cons : cover (range :: live) x =
    cover live x + if range.start ≤ x ∧ x < range.stop then 1 else 0 := by
  simp [cover, countP_cons]

@[grind =] theorem cover_append : cover (before ++ after) x = cover before x + cover after x :=
  countP_append ..

theorem cover_pos : 0 < cover live x ↔ ∃ r ∈ live, r.start ≤ x ∧ x < r.stop := by
  simp [cover, countP_pos_iff]

@[grind =] theorem apart_append : Apart (before ++ after) ↔
    Apart before ∧ Apart after ∧ ∀ a ∈ before, ∀ b ∈ after, a.stop < b.start := by
  simp only [Apart, pairwise_append, forall_mem_append]
  tauto

@[grind =] theorem apart_cons : Apart (range :: after) ↔
    range.start < range.stop ∧ Apart after ∧ ∀ b ∈ after, range.stop < b.start := by
  simp only [Apart, pairwise_cons, forall_mem_cons]
  tauto

@[grind .] theorem apart_nil : Apart [] := ⟨.nil, forall_mem_nil _⟩

@[grind →] theorem Apart.lt (h : Apart live) (hr : range ∈ live) : range.start < range.stop :=
  h.2 range hr

theorem Tiled.perm {live' : List Range} (h : Tiled pool live) (hp : live' ~ live) :
    Tiled pool live' :=
  ⟨h.apart, h.below, fun x => (congrArg (· + _) (hp.countP_eq _)).trans (h.once x)⟩

/-- A pool with nothing live is empty: its last place would be in a gap. -/
theorem Tiled.eq_new (h : Tiled pool []) : pool = new 0 := by
  obtain ⟨stop, free⟩ := pool
  have hs : stop = 0 := by
    by_contra hne
    have hlast := h.once (stop - 1)
    rw [if_pos (Nat.sub_one_lt hne), cover, countP_nil, Nat.zero_add] at hlast
    obtain ⟨gap, hg, -, hin⟩ := cover_pos.mp (hlast ▸ Nat.one_pos)
    have hlt := h.below gap hg
    dsimp only at hlt
    omega
  have hf : free = [] := eq_nil_iff_forall_not_mem.mpr fun gap hg =>
    Nat.not_lt_zero _ (hs ▸ h.below gap hg)
  rw [hs, hf, new]

/-! ## Reserving -/

theorem bestFit_some (h : pool.bestFit count = some (gap, index)) :
    pool.free[index]? = some gap ∧ count ≤ gap.len := by
  obtain ⟨hm, hf⟩ := mem_filter.mp (argmin_mem h)
  exact ⟨mem_zipIdx_iff_getElem?.mp hm, of_decide_eq_true hf⟩

theorem bestFit_none : pool.bestFit count = none ↔ ∀ gap ∈ pool.free, ¬count ≤ gap.len := by
  rw [bestFit, argmin_eq_none, filter_eq_nil_iff]
  constructor
  · intro h gap hg
    obtain ⟨i, hi⟩ := mem_iff_getElem?.mp hg
    simpa using h (gap, i) (mem_zipIdx_iff_getElem?.mpr hi)
  · rintro h ⟨gap, i⟩ hg
    simpa using h gap (mem_of_getElem? (mem_zipIdx_iff_getElem?.mp hg))

def Room (pool : RangePool) (count limit : Nat) : Prop :=
  count = 0 ∨ (∃ gap ∈ pool.free, count ≤ gap.len) ∨
    pool.stop + count ≤ u64Max ∧ pool.stop + count ≤ limit

theorem reserve_isSome : (pool.reserve count limit).2.isSome ↔ pool.Room count limit := by
  unfold reserve Room
  split
  next h => simp [h]
  next =>
    split
    next hf =>
      obtain ⟨hg, hf⟩ := bestFit_some hf
      exact iff_of_true rfl (.inr (.inl ⟨_, mem_of_getElem? hg, hf⟩))
    next hn =>
      have hf := bestFit_none.mp hn
      split <;> simp_all

theorem Tiled.cut (h : Tiled ⟨stop, before ++ gap :: after⟩ live) (hpos : count ≠ 0)
    (hf : count ≤ gap.len) :
    Tiled ⟨stop, RangePool.cut (before ++ gap :: after) gap before.length count⟩
      (⟨gap.start, gap.start + count⟩ :: live) := by
  obtain ⟨hap, hb, ho⟩ := h
  rw [Range.len] at hf
  unfold RangePool.cut
  split
  next =>
    rw [eraseIdx_append_of_length_le (Nat.le_refl _), Nat.sub_self, eraseIdx_cons_zero]
    exact ⟨by grind, by grind, fun x => by grind [ho x]⟩
  next =>
    rw [set_append_right _ _ (Nat.le_refl _), Nat.sub_self, set_cons_zero]
    exact ⟨by grind, by grind, fun x => by grind [ho x]⟩

theorem Tiled.reserve (h : Tiled pool live) :
    Tiled (pool.reserve count limit).1 ((pool.reserve count limit).2.toList ++ live) := by
  unfold RangePool.reserve
  split
  next => exact ⟨h.apart, h.below, fun x => by grind [h.once x]⟩
  next hpos =>
    split
    next gap index hb =>
      obtain ⟨hg, hfi⟩ := bestFit_some hb
      obtain ⟨hlt, hge⟩ := List.getElem?_eq_some_iff.mp hg
      obtain ⟨before, after, hf, rfl⟩ : ∃ before after, pool.free = before ++ gap :: after ∧
          before.length = index :=
        ⟨_, _, by rw [← hge, getElem_cons_drop, take_append_drop], length_take_of_le hlt.le⟩
      rw [hf]
      exact Tiled.cut (hf ▸ h) hpos hfi
    next =>
      split
      next =>
        exact ⟨h.apart, fun gap hg => Nat.lt_add_right _ (h.below gap hg),
          fun x => by grind [h.once x]⟩
      next => exact h

/-! ## Releasing -/

theorem cover_split (free : List Range) (n x : Nat) :
    cover free x = cover (free.filter (·.start < n)) x + cover (free.filter (n ≤ ·.start)) x := by
  induction free with
  | nil => rfl
  | cons gap free ih => by_cases h : gap.start < n <;> grind

theorem joinLeft_spec (before : List Range) (range : Range) (hb : Apart before)
    (hr : range.start < range.stop) (hle : ∀ gap ∈ before, gap.stop ≤ range.start) :
    ∃ before' range', joinLeft before range = (before', range') ∧
      range'.stop = range.stop ∧ Apart (before' ++ [range']) ∧
      ∀ x, cover (before' ++ [range']) x = cover (before ++ [range]) x := by
  unfold joinLeft
  rcases eq_nil_or_concat' before with rfl | ⟨init, gap, rfl⟩
  · exact ⟨_, _, rfl, rfl, by grind, fun x => rfl⟩
  · simp only [getLast?_concat, dropLast_concat]
    split
    next => exact ⟨_, _, rfl, rfl, by grind, fun x => by grind⟩
    next => exact ⟨_, _, rfl, rfl, by grind, fun x => rfl⟩

theorem joinRight_spec (range : Range) (after : List Range) (ha : Apart after)
    (hr : range.start < range.stop) (hle : ∀ gap ∈ after, range.stop ≤ gap.start) :
    ∃ range' after', joinRight range after = (range', after') ∧ after' ⊆ after ∧
      range'.start = range.start ∧ Apart (range' :: after') ∧
      ∀ x, cover (range' :: after') x = cover (range :: after) x := by
  cases after with
  | nil => exact ⟨_, _, rfl, .refl _, rfl, by grind, fun x => rfl⟩
  | cons gap after =>
    rw [joinRight]
    split
    next => exact ⟨_, _, rfl, subset_cons_self .., rfl, by grind, fun x => by grind⟩
    next => exact ⟨_, _, rfl, .refl _, rfl, by grind, fun x => rfl⟩

theorem Tiled.join (hap : Apart (before ++ range :: after)) (hb : ∀ gap ∈ after, gap.stop < stop)
    (ho : ∀ x, cover live x + cover (before ++ range :: after) x = if x < stop then 1 else 0) :
    Tiled (if range.stop = stop then ⟨range.start, before ++ after⟩
      else ⟨stop, before ++ range :: after⟩) live := by
  have hlast := ho (range.stop - 1)
  split
  next =>
    have hnil : after = [] := eq_nil_iff_forall_not_mem.mpr fun gap hg => by grind [hb gap hg]
    exact ⟨by grind, by grind, fun x => by grind [ho x]⟩
  next => exact ⟨hap, by grind, ho⟩

theorem Tiled.release (h : Tiled pool (range :: live)) : Tiled (pool.release range) live := by
  obtain ⟨⟨hs, hne⟩, hb, ho⟩ := h
  unfold RangePool.release
  split
  next => exact ⟨⟨hs, hne⟩, hb, fun x => by grind [ho x]⟩
  next hr =>
    -- No place is in a gap and in the range.
    have hou : ∀ gap ∈ pool.free, gap.stop ≤ range.start ∨ range.stop ≤ gap.start := by
      intro gap hg
      by_contra hin
      have hpos : 0 < cover pool.free (max gap.start range.start) :=
        cover_pos.mpr ⟨gap, hg, by grind⟩
      grind [ho (max gap.start range.start)]
    obtain ⟨before, left, hle, hsp, ha, hc⟩ :=
      joinLeft_spec (pool.free.filter (·.start < range.start)) range
        ⟨hs.filter _, by grind⟩ (by omega) (by grind)
    obtain ⟨right, after, hri, hsu, hst, hap, hco⟩ :=
      joinRight_spec left (pool.free.filter (range.start ≤ ·.start))
        ⟨hs.filter _, by grind⟩ (by grind) (by grind)
    simp only [hle, hri]
    refine .join (by grind) (by grind) fun x => ?_
    have hsl := cover_split pool.free range.start x
    simp only [cover_append, cover_cons, cover_nil] at ho hc hco ⊢
    have hx := ho x
    have hl := hc x
    have hr := hco x
    omega

theorem Tiled.release_all (h : Tiled pool live) : live.foldl RangePool.release pool = new 0 := by
  induction live generalizing pool with
  | nil => exact h.eq_new
  | cons range live ih => exact ih h.release

/-! ## Runs -/

inductive Call
  | reserve (count limit : Nat)
  | release (range : Range)

def step (s : RangePool × List Range) : Call → RangePool × List Range
  | .reserve count limit =>
    ((s.1.reserve count limit).1, (s.1.reserve count limit).2.toList ++ s.2)
  | .release range => if range ∈ s.2 then (s.1.release range, s.2.erase range) else s

def run (base : Nat) (calls : List Call) : RangePool × List Range :=
  calls.foldl step (new base, [⟨0, base⟩])

theorem tiled_step {s : RangePool × List Range} (h : Tiled s.1 s.2) (call : Call) :
    Tiled (step s call).1 (step s call).2 := by
  cases call with
  | reserve count limit => exact h.reserve
  | release range =>
    rw [step]
    split
    next hm => exact (h.perm (perm_cons_erase hm).symm).release
    next => exact h

/-- What a pool promises: its ranges tile it, a request fails only for want of room, and giving
everything back, in any order, leaves it empty. -/
structure Exact (pool : RangePool) (live : List Range) : Prop extends Tiled pool live where
  reserve : ∀ count limit, (pool.reserve count limit).2.isSome ↔ pool.Room count limit
  release : ∀ order, order ~ live → order.foldl release pool = new 0

theorem run_exact (base : Nat) (calls : List Call) :
    Exact (run base calls).1 (run base calls).2 := by
  have h : Tiled (run base calls).1 (run base calls).2 := by
    refine foldlRecOn (motive := fun s => Tiled s.1 s.2) calls step ?_ fun _ h call _ =>
      tiled_step h call
    exact ⟨apart_nil, forall_mem_nil _, fun x => by grind [new]⟩
  exact ⟨h, fun _ _ => reserve_isSome, fun order hp => (h.perm hp).release_all⟩

/-- Neither an empty request nor one that a gap can hold is held to the limit. -/
theorem reserve_beyond_limit :
    ((run 1 []).1.reserve 0 0).2 = some ⟨0, 0⟩ ∧ (run 1 []).1 = ⟨1, []⟩ ∧
      ((run 2 [.reserve 1 4, .reserve 1 4, .release ⟨2, 3⟩]).1.reserve 1 2).2 = some ⟨2, 3⟩ := by
  decide

end RangePool

end Xolotl.Kernel
