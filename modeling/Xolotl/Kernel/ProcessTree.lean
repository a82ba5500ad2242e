import Xolotl.Kernel.Process

/-! The process tree is consistent: parents are retained, every child stands in its
parent's vector at the slot it records, and every entry that can be reaped is queued.
Between a change of an entry and the notification that follows it, one entry may be
eligible and not yet queued; the invariant carries it as `missed`. -/

namespace Xolotl.Kernel

open DenseIndex List Function

namespace ProcessEntry

def reapable (e : ProcessEntry) : Bool :=
  e.scope.finalized && e.cleanupPin == 0 && e.managedCaptures == 0 &&
    !e.requestAuthorizer && !e.publication && !e.steps && e.onFinalize == 0 &&
    e.scope.status.isTerminal && !e.scope.finalizerActive &&
    e.scope.budget.inflightOps == 0 && e.parent.isSome

/-- A committed entry retains nothing for its lifecycle, and only committed entries
are queued. -/
structure Settled (e : ProcessEntry) : Prop where
  queued : e.reapQueued = true → e.scope.finalized = true
  terminal : e.scope.finalized = true → e.scope.status.isTerminal = true
  released : e.scope.finalized = true → e.steps = false ∧ e.onFinalize = 0 ∧
    e.publication = false ∧ e.requestAuthorizer = false ∧ e.finalization = false

structure Stays (e e' : ProcessEntry) : Prop where
  process : e'.scope.process = e.scope.process
  parent : e'.parent = e.parent
  parentSlot : e'.parentSlot = e.parentSlot

structure Keeps (e e' : ProcessEntry) : Prop extends Stays e e' where
  reapQueued : e'.reapQueued = e.reapQueued
  settled : Settled e → Settled e'

end ProcessEntry

namespace ProcessTable

open ProcessEntry

variable {t : ProcessTable} {id : Nat} {missed : Option Nat}

theorem get_modify (t : ProcessTable) (id k : Nat) (f : ProcessEntry → ProcessEntry) :
    (t.modify id f).get k = if k = id then (t.get id).map f else t.get k :=
  Finmap.lookup_modify t.procs id k f

theorem canReap_eq (t : ProcessTable) (id : Nat) : t.canReap id =
    ((t.get id).any reapable && (t.tasks.lookup id).isNone && (t.childrenOf id).isEmpty) := by
  unfold canReap
  cases t.get id with
  | none => rfl
  | some e => rfl

theorem canReap_iff : t.canReap id = true ↔ (∃ e, t.get id = some e ∧ e.reapable = true) ∧
    t.tasks.lookup id = none ∧ t.childrenOf id = [] := by
  rw [canReap_eq, Bool.and_eq_true, Bool.and_eq_true, Option.isNone_iff_eq_none,
    List.isEmpty_iff, and_assoc]
  simp only [Option.any_eq_true]

def slotOf (t : ProcessTable) (id : Nat) : Nat := ((t.get id).map ProcessEntry.parentSlot).getD 0

structure Tree (t : ProcessTable) : Prop where
  named : ∀ id e, t.get id = some e → e.scope.process = id
  retained : ∀ id e p, t.get id = some e → e.parent = some p → ∃ pe, t.get p = some pe
  ranked : ∃ rank : Nat → Nat, ∀ id e p, t.get id = some e → e.parent = some p → rank p < rank id
  children : ∀ p c, c ∈ t.childrenOf p ↔ ∃ e, t.get c = some e ∧ e.parent = some p
  indexed : ∀ p, Indexed (t.childrenOf p) t.slotOf

structure Sound (t : ProcessTable) (missed : Option Nat) : Prop extends Tree t where
  settled : ∀ id e, t.get id = some e → Settled e
  queued : ∀ id, id ∈ t.reapReady ↔ ∃ e, t.get id = some e ∧ e.reapQueued = true
  queue_nodup : t.reapReady.Nodup
  ready : ∀ id, t.canReap id = true → missed ≠ some id → id ∈ t.reapReady

theorem Sound.weaken (h : Sound t none) (missed : Option Nat) : Sound t missed :=
  { h with ready := fun id hr _ => h.ready id hr nofun }

theorem Sound.strengthen (h : Sound t (some id))
    (hr : t.canReap id = true → id ∈ t.reapReady) : Sound t none := by
  refine { h with ready := fun k hk _ => ?_ }
  by_cases hki : k = id
  · subst hki
    exact hr hk
  · exact h.ready k hk fun heq => hki (Option.some.inj heq).symm

theorem Sound.frame {t' : ProcessTable} (h : Sound t none) (hp : t'.procs = t.procs)
    (hch : t'.children = t.children) (hr : t'.reapReady = t.reapReady)
    (ht : ∀ k, missed ≠ some k → t'.tasks.lookup k = none → t.tasks.lookup k = none) :
    Sound t' missed := by
  obtain ⟨procs, children, tasks, capacity, reapReady, next, abandoned, exited⟩ := t'
  subst hp hch hr
  refine ⟨⟨h.named, h.retained, h.ranked, h.children, h.indexed⟩, h.settled, h.queued,
    h.queue_nodup, fun k hk hne => ?_⟩
  obtain ⟨he, hta, hc⟩ := canReap_iff.mp hk
  exact h.ready k (canReap_iff.mpr ⟨he, ht k hne hta, hc⟩) nofun

/-! ## Changes of one entry -/

section Entry

variable {f : ProcessEntry → ProcessEntry}

theorem get_modify_some {k : Nat} {e' : ProcessEntry} (h : (t.modify id f).get k = some e') :
    ∃ e, t.get k = some e ∧ e' = if k = id then f e else e := by
  rw [get_modify] at h
  split at h
  · next hk =>
    obtain ⟨e, he, rfl⟩ := Option.map_eq_some_iff.mp h
    exact ⟨e, by rw [hk]; exact he, (if_pos hk).symm⟩
  · next hk => exact ⟨e', h, (if_neg hk).symm⟩

theorem get_modify_of_some {k : Nat} {e : ProcessEntry} (h : t.get k = some e) :
    (t.modify id f).get k = some (if k = id then f e else e) := by
  rw [get_modify]
  split
  · next hk => rw [← hk, h]; rfl
  · exact h

theorem Tree.modify (h : Tree t) (hst : ∀ e, t.get id = some e → Stays e (f e)) :
    Tree (t.modify id f) := by
  have hs : ∀ k e, t.get k = some e → Stays e (if k = id then f e else e) := by
    intro k e he
    split
    · next hk => exact hst e (by rw [← hk]; exact he)
    · exact ⟨rfl, rfl, rfl⟩
  have hsl : (t.modify id f).slotOf = t.slotOf := by
    funext k
    rw [slotOf, slotOf]
    cases hk : t.get k with
    | none =>
      rw [get_modify]
      split
      · next heq => rw [← heq, hk]; rfl
      · rw [hk]
    | some e =>
      rw [get_modify_of_some hk]
      exact (hs k e hk).parentSlot
  refine ⟨?_, ?_, ?_, ?_, ?_⟩
  · intro k e' hk
    obtain ⟨e, he, rfl⟩ := get_modify_some hk
    exact (hs k e he).process.trans (h.named k e he)
  · intro k e' p hk hp
    obtain ⟨e, he, rfl⟩ := get_modify_some hk
    obtain ⟨pe, hpe⟩ := h.retained k e p he ((hs k e he).parent.symm.trans hp)
    exact ⟨_, get_modify_of_some hpe⟩
  · obtain ⟨rank, hr⟩ := h.ranked
    refine ⟨rank, fun k e' p hk hp => ?_⟩
    obtain ⟨e, he, rfl⟩ := get_modify_some hk
    exact hr k e p he ((hs k e he).parent.symm.trans hp)
  · intro p c
    show c ∈ t.childrenOf p ↔ _
    rw [h.children]
    constructor
    · rintro ⟨e, he, hp⟩
      exact ⟨_, get_modify_of_some he, (hs c e he).parent.trans hp⟩
    · rintro ⟨e', he', hp⟩
      obtain ⟨e, he, rfl⟩ := get_modify_some he'
      exact ⟨e, he, (hs c e he).parent.symm.trans hp⟩
  · intro p
    rw [hsl]
    exact h.indexed p

theorem canReap_modify_of_ne {k : Nat} (hk : k ≠ id) : (t.modify id f).canReap k = t.canReap k := by
  rw [canReap_eq, canReap_eq, get_modify, if_neg hk]
  rfl

theorem Sound.modify (h : Sound t none)
    (hkp : ∀ e, t.get id = some e → Keeps e (f e)) : Sound (t.modify id f) (some id) := by
  have hke : ∀ k e, t.get k = some e → Keeps e (if k = id then f e else e) := by
    intro k e he
    split
    · next hk => exact hkp e (by rw [← hk]; exact he)
    · exact ⟨⟨rfl, rfl, rfl⟩, rfl, fun hs => hs⟩
  refine ⟨h.toTree.modify fun e he => (hkp e he).toStays, ?_, ?_, h.queue_nodup, ?_⟩
  · intro k e' hk
    obtain ⟨e, he, rfl⟩ := get_modify_some hk
    exact (hke k e he).settled (h.settled k e he)
  · intro k
    show k ∈ t.reapReady ↔ _
    rw [h.queued]
    constructor
    · rintro ⟨e, he, hq⟩
      exact ⟨_, get_modify_of_some he, (hke k e he).reapQueued.trans hq⟩
    · rintro ⟨e', he', hq⟩
      obtain ⟨e, he, rfl⟩ := get_modify_some he'
      exact ⟨e, he, (hke k e he).reapQueued.symm.trans hq⟩
  · intro k hk hne
    rw [canReap_modify_of_ne fun heq => hne (by rw [heq])] at hk
    exact h.ready k hk nofun

theorem Sound.modify_quiet (h : Sound t none) (hk : ∀ e, t.get id = some e → Keeps e (f e))
    (hq : ∀ e, t.get id = some e → (f e).reapable = true → e.reapable = true) :
    Sound (t.modify id f) none := by
  refine (h.modify hk).strengthen fun hr => ?_
  refine h.ready id ?_ nofun
  rw [canReap_iff] at hr ⊢
  obtain ⟨⟨e', he', hre⟩, hrt⟩ := hr
  obtain ⟨e, he, rfl⟩ := get_modify_some he'
  rw [if_pos rfl] at hre
  exact ⟨⟨e, he, hq e he hre⟩, hrt⟩

end Entry

/-! ## The notification -/

theorem queueReapIfEligible_cases (t : ProcessTable) (id : Nat) :
    (t.queueReapIfEligible id = t ∧
      (t.canReap id = true → ∃ e, t.get id = some e ∧ e.reapQueued = true)) ∨
    (t.canReap id = true ∧ (∃ e, t.get id = some e ∧ e.reapQueued = false) ∧
      t.queueReapIfEligible id = { t.modify id fun e => { e with reapQueued := true } with
        reapReady := t.reapReady ++ [id] }) := by
  unfold queueReapIfEligible
  cases hr : t.canReap id with
  | false => exact .inl ⟨rfl, nofun⟩
  | true =>
    obtain ⟨⟨e, he, -⟩, -⟩ := canReap_iff.mp hr
    rw [he]
    cases hq : e.reapQueued with
    | true => exact .inl ⟨by simp [hq], fun _ => ⟨e, rfl, hq⟩⟩
    | false => exact .inr ⟨rfl, ⟨e, rfl, hq⟩, by simp [hq]⟩

theorem Sound.requeue {e : ProcessEntry} {missed' : Option Nat} {l : List Nat} {queued : Bool}
    (h : Sound t missed) (he : t.get id = some e) (hse : queued = true → e.scope.finalized = true)
    (hl : ∀ k, k ∈ l ↔ if k = id then queued = true else k ∈ t.reapReady) (hnd : l.Nodup)
    (hr : ∀ k, t.canReap k = true → missed' ≠ some k → k ∈ l) :
    Sound ({ t with reapReady := l }.modify id fun e => { e with reapQueued := queued })
      missed' := by
  have ht : Tree { t with reapReady := l } := ⟨h.named, h.retained, h.ranked, h.children, h.indexed⟩
  refine ⟨ht.modify fun _ _ => ⟨rfl, rfl, rfl⟩, ?_, ?_, hnd, ?_⟩
  · intro k e' hk
    obtain ⟨e₀, he₀, rfl⟩ := get_modify_some hk
    have hs := h.settled k e₀ he₀
    split
    · next heq =>
      subst heq
      cases he.symm.trans he₀
      exact ⟨hse, hs.terminal, hs.released⟩
    · exact hs
  · intro k
    show k ∈ l ↔ _
    rw [hl]
    by_cases hk : k = id
    · subst hk
      rw [if_pos rfl]
      constructor
      · intro hq
        exact ⟨_, get_modify_of_some he, by rw [if_pos rfl]; exact hq⟩
      · rintro ⟨e', he', hq⟩
        obtain ⟨e₀, -, rfl⟩ := get_modify_some he'
        rw [if_pos rfl] at hq
        exact hq
    · rw [if_neg hk, h.queued, get_modify, if_neg hk]
      rfl
  · intro k hk
    refine hr k ?_
    rw [← hk, canReap_eq, canReap_eq, get_modify]
    split
    · next heq =>
      rw [heq, Option.any_map]
      rfl
    · rfl

theorem Sound.queue (h : Sound t (some id)) : Sound (t.queueReapIfEligible id) none := by
  rcases t.queueReapIfEligible_cases id with ⟨heq, hq⟩ | ⟨hr, ⟨e, he, hq⟩, heq⟩
  · rw [heq]
    exact h.strengthen fun hr => (h.queued id).mpr (hq hr)
  rw [heq]
  have hf : e.scope.finalized = true := by
    obtain ⟨⟨e', he', hre⟩, -⟩ := canReap_iff.mp hr
    cases he.symm.trans he'
    simp only [reapable, Bool.and_eq_true] at hre
    tauto
  have hn : id ∉ t.reapReady := by
    intro hm
    obtain ⟨e', he', hq'⟩ := (h.queued id).mp hm
    cases he.symm.trans he'
    rw [hq] at hq'
    cases hq'
  show Sound ({ t with reapReady := t.reapReady ++ [id] }.modify id fun e =>
    { e with reapQueued := true }) none
  refine h.requeue he (fun _ => hf) (fun k => ?_) ?_ fun k hk _ => ?_
  · split
    · next hk => simp [hk]
    · next hk => simp [hk]
  · exact h.queue_nodup.append (nodup_singleton id) (by simpa using hn)
  · by_cases hki : k = id
    · rw [hki]
      exact mem_append_right _ (mem_singleton_self id)
    · exact mem_append_left _ (h.ready k hk fun heq => hki (Option.some.inj heq).symm)

/-! ## Admission -/

section Link

variable {entry : ProcessEntry} {p : Nat}

theorem get_linkEntry (t : ProcessTable) (hp : entry.parent = some p) (k : Nat) :
    (t.linkEntry entry).get k = if k = entry.scope.process then
      some { entry with
        requestAuthorizer := entry.requestAuthorizer ||
          ((t.get p).map ProcessEntry.requestAuthorizer).getD false
        parentSlot := (t.childrenOf p).length }
      else t.get k := by
  unfold linkEntry
  rw [hp]
  exact Finmap.lookup_insert_eq t.procs _ k _

theorem childrenOf_linkEntry (t : ProcessTable) (hp : entry.parent = some p) (q : Nat) :
    (t.linkEntry entry).childrenOf q =
      if q = p then t.childrenOf p ++ [entry.scope.process] else t.childrenOf q := by
  unfold linkEntry
  rw [hp]
  show ((t.children.insert p _).lookup q).getD [] = _
  rw [Finmap.lookup_insert_eq]
  split <;> rfl

theorem linkEntry_frame (t : ProcessTable) (entry : ProcessEntry) :
    (t.linkEntry entry).tasks = t.tasks ∧ (t.linkEntry entry).reapReady = t.reapReady := by
  unfold linkEntry
  cases entry.parent <;> exact ⟨rfl, rfl⟩

theorem Tree.link (h : Tree t) (hp : entry.parent = some p)
    (hid : t.get entry.scope.process = none) (hpa : ∃ pe, t.get p = some pe) :
    Tree (t.linkEntry entry) := by
  have hg := get_linkEntry t hp
  have hch := childrenOf_linkEntry t hp
  have hold : ∀ k e, t.get k = some e → k ≠ entry.scope.process := by
    rintro k e hk rfl
    rw [hid] at hk
    cases hk
  have hn : ∀ k e, t.get k = some e → e.parent ≠ some entry.scope.process := by
    intro k e hk hpr
    obtain ⟨pe, hpe⟩ := h.retained k e _ hk hpr
    exact hold _ pe hpe rfl
  have hke : ∀ k, k ≠ entry.scope.process → (t.linkEntry entry).get k = t.get k :=
    fun k hk => (hg k).trans (if_neg hk)
  have hs : ∀ q, ∀ c ∈ t.childrenOf q, (t.linkEntry entry).slotOf c = t.slotOf c := by
    intro q c hc
    obtain ⟨e, he, -⟩ := (h.children q c).mp hc
    rw [slotOf, slotOf, hke c (hold c e he)]
  refine ⟨?_, ?_, ?_, ?_, ?_⟩
  · intro k e hk
    rw [hg] at hk
    split at hk
    · next heq =>
      cases hk
      exact heq.symm
    · exact h.named k e hk
  · intro k e q hk hq
    have hpr' : ∃ pe, t.get q = some pe := by
      rw [hg] at hk
      split at hk
      · cases hk
        cases hp.symm.trans hq
        exact hpa
      · exact h.retained k e q hk hq
    obtain ⟨pe, hpe⟩ := hpr'
    exact ⟨pe, (hke q (hold q pe hpe)).trans hpe⟩
  · obtain ⟨rank, hr⟩ := h.ranked
    refine ⟨Function.update rank entry.scope.process (rank p + 1), fun k e q hk hq => ?_⟩
    have hpn : p ≠ entry.scope.process := by
      obtain ⟨pe, hpe⟩ := hpa
      exact hold p pe hpe
    rw [hg] at hk
    split at hk
    · next heq =>
      cases hk
      cases hp.symm.trans hq
      rw [heq, update_self, update_of_ne hpn]
      exact Nat.lt_succ_self _
    · next hne =>
      have hqn : q ≠ entry.scope.process := fun heq => hn k e hk (by rw [← heq]; exact hq)
      rw [update_of_ne hne, update_of_ne hqn]
      exact hr k e q hk hq
  · intro q c
    rw [hch, hg]
    by_cases hc : c = entry.scope.process
    · have hold' : ∀ q, c ∉ t.childrenOf q := by
        intro q hm
        obtain ⟨e, he, -⟩ := (h.children q c).mp hm
        exact hold c e he hc
      rw [if_pos hc]
      constructor
      · intro hm
        split at hm
        · next hq => exact ⟨_, rfl, by rw [hq]; exact hp⟩
        · exact absurd hm (hold' q)
      · rintro ⟨e, he, hq⟩
        cases he
        cases hp.symm.trans hq
        rw [if_pos rfl, hc]
        exact mem_append_right _ (mem_singleton_self _)
    · rw [if_neg hc, ← h.children]
      split
      · next hq => rw [hq, mem_append, mem_singleton, or_iff_left hc]
      · rfl
  · intro q
    rw [hch]
    split
    · refine (h.indexed p).append ?_ (hs p)
      rw [slotOf, hg, if_pos rfl]
      rfl
    · intro i c hc
      rw [hs q c (mem_of_getElem? hc)]
      exact h.indexed q i c hc

theorem Sound.link (h : Sound t none) (hp : entry.parent = some p)
    (hid : t.get entry.scope.process = none) (hpa : ∃ pe, t.get p = some pe)
    (hfr : entry.scope.finalized = false) (hq : entry.reapQueued = false) :
    Sound (t.linkEntry entry) none := by
  have hg := get_linkEntry t hp
  obtain ⟨ht, hr⟩ := linkEntry_frame t entry
  refine ⟨h.toTree.link hp hid hpa, ?_, ?_, ?_, ?_⟩
  · intro k e hk
    rw [hg] at hk
    split at hk
    · cases hk
      refine ⟨fun hq' => ?_, fun hf => ?_, fun hf => ?_⟩
      · rw [hq] at hq'
        cases hq'
      · rw [hfr] at hf
        cases hf
      · rw [hfr] at hf
        cases hf
    · exact h.settled k e hk
  · intro k
    rw [hr, h.queued, hg]
    by_cases hk : k = entry.scope.process
    · rw [if_pos hk, hk, hid]
      refine iff_of_false (fun ⟨e, he, _⟩ => nomatch he) fun ⟨e, he, hq'⟩ => ?_
      cases he
      rw [hq] at hq'
      cases hq'
    · rw [if_neg hk]
  · rw [hr]
    exact h.queue_nodup
  · intro k hk _
    rw [hr]
    refine h.ready k ?_ nofun
    rw [canReap_iff, hg, childrenOf_linkEntry t hp, ht] at hk
    obtain ⟨⟨e, he, hre⟩, hta, hc⟩ := hk
    -- the new entry is not committed, and its parent now has a child
    have hkn : k ≠ entry.scope.process := by
      intro heq
      rw [if_pos heq] at he
      cases he
      simp only [reapable, hfr] at hre
      cases hre
    have hkp : k ≠ p := by
      intro heq
      rw [if_pos heq] at hc
      exact append_ne_nil_of_right_ne_nil _ (cons_ne_nil _ _) hc
    rw [if_neg hkn] at he
    rw [if_neg hkp] at hc
    exact canReap_iff.mpr ⟨⟨e, he, hre⟩, hta, hc⟩

end Link

/-! ## Removal -/

section Unlink

variable {entry : ProcessEntry} {p : Nat}

def unlinked (t : ProcessTable) (entry : ProcessEntry) (p : Nat) : ProcessTable :=
  match t.children.lookup p with
  | none => t
  | some siblings =>
    let rest := swapRemove siblings entry.parentSlot
    let t := match rest[entry.parentSlot]? with
      | none => t
      | some moved => t.modify moved fun e => { e with parentSlot := entry.parentSlot }
    { t with children :=
      if rest.isEmpty then t.children.erase p else t.children.insert p rest }

theorem unlinkFromParent_eq (t : ProcessTable) (hp : entry.parent = some p) :
    t.unlinkFromParent entry = (t.unlinked entry p).queueReapIfEligible p := by
  unfold unlinkFromParent
  rw [hp]
  rfl

theorem unlinked_frame (t : ProcessTable) (entry : ProcessEntry) (p : Nat) :
    (t.unlinked entry p).tasks = t.tasks ∧ (t.unlinked entry p).reapReady = t.reapReady := by
  unfold unlinked
  cases t.children.lookup p with
  | none => exact ⟨rfl, rfl⟩
  | some siblings =>
    dsimp only
    cases (swapRemove siblings entry.parentSlot)[entry.parentSlot]? <;> exact ⟨rfl, rfl⟩

variable {siblings : List Nat}

theorem get_unlinked (entry : ProcessEntry) (hs : t.children.lookup p = some siblings) (k : Nat) :
    (t.unlinked entry p).get k =
      if (swapRemove siblings entry.parentSlot)[entry.parentSlot]? = some k
      then (t.get k).map fun e => { e with parentSlot := entry.parentSlot } else t.get k := by
  unfold unlinked
  rw [hs]
  dsimp only
  cases hm : (swapRemove siblings entry.parentSlot)[entry.parentSlot]? with
  | none => rfl
  | some moved =>
    refine (get_modify t moved k _).trans ?_
    by_cases hk : k = moved
    · rw [if_pos hk, if_pos (by rw [hk]), hk]
    · rw [if_neg hk, if_neg fun heq => hk (Option.some.inj heq).symm]

theorem childrenOf_unlinked (hs : t.children.lookup p = some siblings) (q : Nat) :
    (t.unlinked entry p).childrenOf q =
      if q = p then swapRemove siblings entry.parentSlot else t.childrenOf q := by
  unfold unlinked
  rw [hs]
  dsimp only
  have hm : ∀ t' : ProcessTable, t'.children = t.children →
      ((if (swapRemove siblings entry.parentSlot).isEmpty then t'.children.erase p
        else t'.children.insert p (swapRemove siblings entry.parentSlot)).lookup q).getD [] =
      if q = p then swapRemove siblings entry.parentSlot else t.childrenOf q := by
    intro t' ht'
    rw [ht']
    split
    · next he =>
      rw [Finmap.lookup_erase_eq]
      split
      · exact (List.isEmpty_iff.mp he).symm
      · rfl
    · rw [Finmap.lookup_insert_eq]
      split <;> rfl
  cases (swapRemove siblings entry.parentSlot)[entry.parentSlot]? with
  | none => exact hm t rfl
  | some moved => exact hm (t.modify moved _) rfl

end Unlink

/-- What taking an entry out of the table leaves of it: entries may have moved within
their parent's vector. -/
structure Detached (t t' : ProcessTable) (id : Nat) : Prop where
  gone : t'.get id = none
  kept : ∀ k, k ≠ id → ∃ f : Nat → Nat,
    t'.get k = (t.get k).map fun e => { e with parentSlot := f e.parentSlot }
  children : ∀ q c, c ∈ t'.childrenOf q ↔ c ∈ t.childrenOf q ∧ c ≠ id
  indexed : ∀ q, Indexed (t'.childrenOf q) t'.slotOf
  tasks : t'.tasks = t.tasks
  reapReady : t'.reapReady = t.reapReady

theorem Tree.unlink {e : ProcessEntry} {p : Nat} (h : Tree t) (t₁ : ProcessTable)
    (he : t.get id = some e) (hp : e.parent = some p) (hpr : t₁.procs = t.procs.erase id)
    (hch : ∀ q, t₁.childrenOf q = t.childrenOf q)
    (ht : t₁.tasks = t.tasks) (hr : t₁.reapReady = t.reapReady) :
    Detached t (t₁.unlinked e p) id := by
  have hme : id ∈ t.childrenOf p := (h.children p id).mpr ⟨e, he, hp⟩
  obtain ⟨siblings, hs⟩ : ∃ siblings, t₁.children.lookup p = some siblings := by
    cases hs : t₁.children.lookup p with
    | none =>
      rw [← hch, childrenOf, hs] at hme
      cases hme
    | some siblings => exact ⟨siblings, rfl⟩
  have hsi : t.childrenOf p = siblings := by
    rw [← hch, childrenOf, hs]
    rfl
  have hi := h.indexed p
  rw [hsi] at hme hi
  have hst : t.slotOf id = e.parentSlot := by rw [slotOf, he]; rfl
  have hat : siblings[e.parentSlot]? = some id := by
    rw [← hst]
    exact hi.getElem? hme
  have hlt := (List.getElem?_eq_some_iff.mp hat).1
  have hre : ∀ k, k ∈ swapRemove siblings e.parentSlot ↔ k ∈ siblings ∧ k ≠ id :=
    fun k => hi.mem_swapRemove hat
  have hg₁ : ∀ k, t₁.get k = if k = id then none else t.get k := by
    intro k
    rw [get, hpr]
    exact Finmap.lookup_erase_eq t.procs id k
  have hg := get_unlinked e hs
  have hki : ∀ q, (t₁.unlinked e p).childrenOf q =
      if q = p then swapRemove siblings e.parentSlot else t.childrenOf q := by
    intro q
    rw [childrenOf_unlinked hs, hch]
  have hmo : ∀ k, (swapRemove siblings e.parentSlot)[e.parentSlot]? = some k →
      k ≠ id ∧ k ∈ siblings := by
    intro k hk
    have hin := (hre k).mp (mem_of_getElem? hk)
    exact ⟨hin.2, hin.1⟩
  have hsd : ∀ k, (swapRemove siblings e.parentSlot)[e.parentSlot]? = some k →
      (t₁.unlinked e p).slotOf k = e.parentSlot := by
    intro k hk
    obtain ⟨hne, hin⟩ := hmo k hk
    rw [← hsi] at hin
    obtain ⟨ek, hek, -⟩ := (h.children p k).mp hin
    rw [slotOf, hg, if_pos hk, hg₁, if_neg hne, hek]
    rfl
  have hsl : ∀ k, k ≠ id → (swapRemove siblings e.parentSlot)[e.parentSlot]? ≠ some k →
      (t₁.unlinked e p).slotOf k = t.slotOf k := by
    intro k hne hk
    rw [slotOf, slotOf, hg, if_neg hk, hg₁, if_neg hne]
  obtain ⟨ht', hr'⟩ := unlinked_frame t₁ e p
  refine ⟨?_, fun k hk => ?_, fun q c => ?_, fun q => ?_, ht'.trans ht, hr'.trans hr⟩
  · rw [hg, hg₁, if_pos rfl]
    split <;> rfl
  · rw [hg, hg₁]
    split
    · exact ⟨fun _ => e.parentSlot, rfl⟩
    · exact ⟨fun slot => slot, Option.map_id'.symm⟩
  · rw [hki]
    split
    · next hq => rw [hre, hq, hsi]
    · next hq =>
      refine ⟨fun hc => ⟨hc, ?_⟩, fun hc => hc.1⟩
      rintro rfl
      obtain ⟨e', he', hp'⟩ := (h.children q c).mp hc
      cases he.symm.trans he'
      exact hq (Option.some.inj (hp'.symm.trans hp))
  · rw [hki]
    split
    · refine hi.swapRemove hlt hsd fun b hb hne => ?_
      exact hsl b ((hre b).mp hb).2 hne
    · next hq =>
      intro i c hc
      obtain ⟨ec, hec, hpc⟩ := (h.children q c).mp (mem_of_getElem? hc)
      -- only children of the same parent move
      have hpa : e.parent ≠ some q := fun heq => hq (Option.some.inj (heq.symm.trans hp))
      have hci : c ≠ id := by
        rintro rfl
        cases he.symm.trans hec
        exact hpa hpc
      rw [hsl c hci]
      · exact h.indexed q i c hc
      · intro hm
        have hin := (hmo c hm).2
        rw [← hsi] at hin
        obtain ⟨ec', hec', hpc'⟩ := (h.children p c).mp hin
        cases hec.symm.trans hec'
        exact hq (Option.some.inj (hpc.symm.trans hpc'))

section Detached

variable {t' : ProcessTable} (hd : Detached t t' id)
include hd

theorem Detached.get_some {k : Nat} {e' : ProcessEntry} (hk : t'.get k = some e') :
    k ≠ id ∧ ∃ e slot, t.get k = some e ∧ e' = { e with parentSlot := slot } := by
  have hne : k ≠ id := by
    rintro rfl
    rw [hd.gone] at hk
    cases hk
  obtain ⟨f, hf⟩ := hd.kept k hne
  rw [hf] at hk
  obtain ⟨e, he, rfl⟩ := Option.map_eq_some_iff.mp hk
  exact ⟨hne, e, _, he, rfl⟩

theorem Detached.get_of_some {k : Nat} {e : ProcessEntry} (hk : k ≠ id)
    (he : t.get k = some e) : ∃ slot, t'.get k = some { e with parentSlot := slot } := by
  obtain ⟨f, hf⟩ := hd.kept k hk
  rw [he] at hf
  exact ⟨_, hf⟩

theorem Detached.tree (h : Tree t) (hc : t.childrenOf id = []) : Tree t' := by
  refine ⟨?_, ?_, ?_, ?_, hd.indexed⟩
  · intro k e' hk
    obtain ⟨-, e, slot, he, rfl⟩ := hd.get_some hk
    exact h.named k e he
  · intro k e' q hk hq
    obtain ⟨-, e, slot, he, rfl⟩ := hd.get_some hk
    obtain ⟨pe, hpe⟩ := h.retained k e q he hq
    have hqi : q ≠ id := by
      rintro rfl
      have hm := (h.children q k).mpr ⟨e, he, hq⟩
      rw [hc] at hm
      cases hm
    obtain ⟨slot', hpe'⟩ := hd.get_of_some hqi hpe
    exact ⟨_, hpe'⟩
  · obtain ⟨rank, hr⟩ := h.ranked
    refine ⟨rank, fun k e' q hk hq => ?_⟩
    obtain ⟨-, e, slot, he, rfl⟩ := hd.get_some hk
    exact hr k e q he hq
  · intro q c
    rw [hd.children, h.children]
    constructor
    · rintro ⟨⟨e, he, hq⟩, hne⟩
      obtain ⟨slot, he'⟩ := hd.get_of_some hne he
      exact ⟨_, he', hq⟩
    · rintro ⟨e', he', hq⟩
      obtain ⟨hne, e, slot, he, rfl⟩ := hd.get_some he'
      exact ⟨⟨e, he, hq⟩, hne⟩

/-- An entry without children leaves the table: only its parent can become eligible. -/
theorem Sound.detach (h : Sound t (some id)) {e : ProcessEntry} {p : Nat}
    (he : t.get id = some e) (hp : e.parent = some p) (hq : e.reapQueued = false)
    (hc : t.childrenOf id = []) : Sound t' (some p) := by
  refine ⟨hd.tree h.toTree hc, ?_, ?_, ?_, ?_⟩
  · intro k e' hk
    obtain ⟨-, e₀, slot, he₀, rfl⟩ := hd.get_some hk
    have hs := h.settled k e₀ he₀
    exact ⟨hs.queued, hs.terminal, hs.released⟩
  · intro k
    rw [hd.reapReady, h.queued]
    constructor
    · rintro ⟨e₀, he₀, hq₀⟩
      have hne : k ≠ id := by
        rintro rfl
        cases he.symm.trans he₀
        rw [hq] at hq₀
        cases hq₀
      obtain ⟨slot, he'⟩ := hd.get_of_some hne he₀
      exact ⟨_, he', hq₀⟩
    · rintro ⟨e', he', hq'⟩
      obtain ⟨-, e₀, slot, he₀, rfl⟩ := hd.get_some he'
      exact ⟨e₀, he₀, hq'⟩
  · rw [hd.reapReady]
    exact h.queue_nodup
  · intro k hk hkp
    rw [canReap_iff] at hk
    obtain ⟨⟨e', he', hr⟩, ht, hch⟩ := hk
    obtain ⟨hne, e₀, slot, he₀, rfl⟩ := hd.get_some he'
    rw [hd.reapReady]
    refine h.ready k (canReap_iff.mpr ⟨⟨e₀, he₀, hr⟩, ?_, ?_⟩)
      fun heq => hne (Option.some.inj heq).symm
    · rw [← hd.tasks]
      exact ht
    · rw [eq_nil_iff_forall_not_mem] at hch ⊢
      intro c hm
      refine hch c ((hd.children k c).mpr ⟨hm, ?_⟩)
      rintro rfl
      obtain ⟨e₁, he₁, hp₁⟩ := (h.children k c).mp hm
      cases he.symm.trans he₁
      exact hkp (hp.symm.trans hp₁)

end Detached

end ProcessTable
end Xolotl.Kernel
