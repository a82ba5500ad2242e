import Xolotl.Kernel.ProcessTree

/-! Reaping: which entries a reclamation removes, in which order, and that repeating it
removes everything that can be removed. -/

namespace Xolotl.Kernel

open DenseIndex List Option

def ProcessEntry.core (e : ProcessEntry) : ProcessEntry :=
  { e with parentSlot := 0, reapQueued := false }

namespace ProcessTable

open ProcessEntry

variable {t t' t'' : ProcessTable} {id : Nat}

theorem reapable_core (e : ProcessEntry) : e.core.reapable = e.reapable := rfl

/-- The same entries, tasks and children; only the reap queue may differ. -/
structure Alike (t t' : ProcessTable) : Prop where
  core : ∀ k, (t'.get k).map core = (t.get k).map core
  children : ∀ q c, c ∈ t'.childrenOf q ↔ c ∈ t.childrenOf q
  tasks : t'.tasks = t.tasks

structure Reaped (t t' : ProcessTable) (id : Nat) : Prop where
  eligible : t.canReap id = true
  gone : t'.get id = none
  core : ∀ k, k ≠ id → (t'.get k).map core = (t.get k).map core
  children : ∀ q c, c ∈ t'.childrenOf q ↔ c ∈ t.childrenOf q ∧ c ≠ id
  tasks : t'.tasks = t.tasks

inductive Reaps : ProcessTable → List Nat → ProcessTable → Prop
  | done {t t' : ProcessTable} (h : Alike t t') : Reaps t [] t'
  | remove {t t' t'' : ProcessTable} {id : Nat} {l : List Nat} (h : Reaped t t' id)
      (rest : Reaps t' l t'') : Reaps t (id :: l) t''

theorem Alike.refl (t : ProcessTable) : Alike t t := ⟨fun _ => rfl, fun _ _ => Iff.rfl, rfl⟩

theorem Alike.trans (h : Alike t t') (h' : Alike t' t'') : Alike t t'' :=
  ⟨fun k => (h'.core k).trans (h.core k), fun q c => (h'.children q c).trans (h.children q c),
    h'.tasks.trans h.tasks⟩

theorem any_reapable_of_core {a b : Option ProcessEntry} (h : b.map core = a.map core) :
    b.any reapable = a.any reapable := by
  have hm : ∀ o : Option ProcessEntry, o.any reapable = (o.map core).any reapable := by
    intro o
    cases o <;> rfl
  rw [hm, hm a, h]

theorem Alike.canReap (h : Alike t t') (k : Nat) : t'.canReap k = t.canReap k := by
  have hc : (t'.childrenOf k).isEmpty = (t.childrenOf k).isEmpty := by
    rw [Bool.eq_iff_iff, List.isEmpty_iff, List.isEmpty_iff, eq_nil_iff_forall_not_mem,
      eq_nil_iff_forall_not_mem]
    exact forall_congr' fun c => not_congr (h.children k c)
  rw [canReap_eq, canReap_eq, any_reapable_of_core (h.core k), h.tasks, hc]

theorem Reaped.after (h : Alike t t') (h' : Reaped t' t'' id) : Reaped t t'' id := by
  refine ⟨(h.canReap id).symm.trans h'.eligible, h'.gone, fun k hk => ?_, fun q c => ?_,
    h'.tasks.trans h.tasks⟩
  · exact (h'.core k hk).trans (h.core k)
  · rw [h'.children, h.children]

theorem Reaped.before (h : Reaped t t' id) (h' : Alike t' t'') : Reaped t t'' id := by
  refine ⟨h.eligible, ?_, fun k hk => (h'.core k).trans (h.core k hk), fun q c => ?_,
    h'.tasks.trans h.tasks⟩
  · have hn := h'.core id
    rw [h.gone] at hn
    exact map_eq_none_iff.mp hn
  · rw [h'.children, h.children]

variable {l l' rest : List Nat} {step : ProcessTable → ProcessTable} {n k root : Nat}

theorem Reaps.after (h : Alike t t') (h' : Reaps t' l t'') : Reaps t l t'' := by
  cases h' with
  | done hd => exact .done (h.trans hd)
  | remove hr rest => exact .remove (hr.after h) rest

theorem Reaps.append (h : Reaps t l t') (h' : Reaps t' l' t'') : Reaps t (l ++ l') t'' := by
  induction h with
  | done hd => exact h'.after hd
  | remove hr _ ih => exact .remove hr (ih h')

/-! ## One candidate -/

theorem alike_queue (t : ProcessTable) (id : Nat) : Alike t (t.queueReapIfEligible id) := by
  rcases t.queueReapIfEligible_cases id with ⟨heq, -⟩ | ⟨-, -, heq⟩
  · rw [heq]
    exact .refl t
  · rw [heq]
    refine ⟨fun k => ?_, fun _ _ => Iff.rfl, rfl⟩
    show ((t.modify id fun e => { e with reapQueued := true }).get k).map core = _
    rw [get_modify]
    split
    · next hk =>
      rw [hk, Option.map_map]
      rfl
    · rfl

theorem length_queue (t : ProcessTable) (id : Nat) :
    (t.queueReapIfEligible id).reapReady.length ≤ t.reapReady.length + 1 := by
  rcases t.queueReapIfEligible_cases id with ⟨heq, -⟩ | ⟨-, -, heq⟩
  · rw [heq]
    exact Nat.le_succ _
  · rw [heq]
    exact (length_append).le

theorem Detached.reaped (hd : Detached t t' id) (hr : t.canReap id = true) : Reaped t t' id := by
  refine ⟨hr, hd.gone, fun k hk => ?_, hd.children, hd.tasks⟩
  obtain ⟨f, hf⟩ := hd.kept k hk
  rw [hf, Option.map_map]
  rfl

theorem keys_of_alike (h : Alike t t') : t'.procs.keys = t.procs.keys := by
  refine Finmap.keys_congr fun k => ?_
  have hc := congrArg Option.isSome (h.core k)
  rw [isSome_map, isSome_map] at hc
  exact hc

theorem keys_of_reaped (h : Reaped t t' id) : t'.procs.keys = t.procs.keys.erase id := by
  rw [← Finmap.keys_erase]
  refine Finmap.keys_congr fun k => ?_
  rw [Finmap.lookup_erase_eq]
  by_cases hk : k = id
  · rw [if_pos hk, hk]
    exact congrArg Option.isSome h.gone
  · rw [if_neg hk]
    have hc := congrArg Option.isSome (h.core k hk)
    rw [isSome_map, isSome_map] at hc
    exact hc

theorem len_of_reaped (h : Reaped t t' id) : t'.len + 1 = t.len := by
  obtain ⟨⟨e, he, -⟩, -⟩ := canReap_iff.mp h.eligible
  have hm : id ∈ t.procs.keys := (Finmap.mem_keys_iff _ _).mpr ⟨e, he⟩
  rw [len, keys_of_reaped h]
  exact Finset.card_erase_add_one hm

theorem Sound.dequeue (h : Sound t none) (hq : t.reapReady = id :: rest) :
    Sound ({ t with reapReady := rest }.modify id fun e => { e with reapQueued := false })
      (some id) := by
  have hnd := h.queue_nodup
  rw [hq] at hnd
  obtain ⟨hn, hr⟩ := nodup_cons.mp hnd
  obtain ⟨e, he, -⟩ := (h.queued id).mp (by rw [hq]; exact mem_cons_self)
  refine h.requeue he nofun (fun k => ?_) hr fun k hk hne => ?_
  · rw [hq]
    split
    · next hk => simp [hk, hn]
    · next hk => simp [hk]
  · have hm := h.ready k hk nofun
    rw [hq] at hm
    exact (mem_cons.mp hm).resolve_left fun heq => hne (by rw [heq])

theorem reapOne_spec (h : Sound t none) (hq : t.reapReady = id :: rest) {r : Bool × ProcessTable}
    (hr : { t with reapReady := rest }.reapOne id = r) :
    Sound r.2 none ∧ (r.1 = false ∧ Alike t r.2 ∧ r.2.reapReady = rest ∨
      r.1 = true ∧ Reaped t r.2 id ∧ r.2.reapReady.length ≤ rest.length + 1) := by
  subst hr
  unfold reapOne
  dsimp only
  have hde := h.dequeue hq
  generalize ht : { t with reapReady := rest }.modify id _ = t₁ at hde
  have ha : Alike t t₁ := by
    subst ht
    refine ⟨fun k => ?_, fun _ _ => Iff.rfl, rfl⟩
    rw [get_modify]
    split
    · next hk =>
      rw [hk, Option.map_map]
      rfl
    · rfl
  have hg : ∀ e, t₁.get id = some e → e.reapQueued = false := by
    intro e he
    rw [← ht] at he
    obtain ⟨e₀, -, rfl⟩ := get_modify_some he
    rw [if_pos rfl]
  have hre : t₁.reapReady = rest := by rw [← ht]; rfl
  cases hr : t₁.canReap id with
  | false =>
    refine ⟨hde.strengthen fun hr' => ?_, Or.inl ⟨rfl, ha, hre⟩⟩
    rw [hr] at hr'
    cases hr'
  | true =>
    obtain ⟨⟨e, he, hrp⟩, -, hc⟩ := canReap_iff.mp hr
    obtain ⟨p, hp⟩ : ∃ p, e.parent = some p := by
      simp only [reapable, Bool.and_eq_true] at hrp
      exact isSome_iff_exists.mp hrp.2
    simp only [Bool.not_true, Bool.false_eq_true, if_false, he]
    have hki : ∀ q, ({ t₁ with procs := t₁.procs.erase id, children := t₁.children.erase id } :
        ProcessTable).childrenOf q = t₁.childrenOf q := by
      intro q
      show ((t₁.children.erase id).lookup q).getD [] = t₁.childrenOf q
      rw [Finmap.lookup_erase_eq]
      split
      · next hq => rw [hq]; exact hc.symm
      · rfl
    have hd := hde.toTree.unlink { t₁ with
      procs := t₁.procs.erase id, children := t₁.children.erase id } he hp rfl hki rfl rfl
    rw [unlinkFromParent_eq _ hp]
    refine ⟨(hde.detach hd he hp (hg e he) hc).queue, Or.inr ⟨trivial, ?_, ?_⟩⟩
    · exact ((hd.reaped hr).before (alike_queue _ p)).after ha
    · refine (length_queue _ p).trans ?_
      rw [hd.reapReady, hre]

/-! ## Reclamations -/

/-- What is left to do: an entry counts twice, since its removal may queue its parent. -/
def pendingReaps (t : ProcessTable) : Nat := 2 * t.len + t.reapReady.length

structure Reclaimed (t t' : ProcessTable) (l : List Nat) : Prop where
  sound : Sound t' none
  reaps : Reaps t l t'
  pending : t'.pendingReaps ≤ t.pendingReaps

theorem Reclaimed.trans (h : Reclaimed t t' l) (h' : Reclaimed t' t'' l') :
    Reclaimed t t'' (l ++ l') :=
  ⟨h'.sound, h.reaps.append h'.reaps, h'.pending.trans h.pending⟩

theorem reapFinalized_spec (h : Sound t none) (limit : Nat) :
    ∃ l, Reclaimed t (reapFinalized limit t).2 l ∧ (reapFinalized limit t).1 = l.length ∧
      (0 < limit → t.reapReady ≠ [] → (reapFinalized limit t).2.pendingReaps < t.pendingReaps) := by
  induction limit generalizing t with
  | zero => exact ⟨[], ⟨h, .done (.refl t), Nat.le_refl _⟩, rfl, fun hpos => absurd hpos (by omega)⟩
  | succ limit ih =>
    unfold reapFinalized
    cases hq : t.reapReady with
    | nil => exact ⟨[], ⟨h, .done (.refl t), Nat.le_refl _⟩, rfl, fun _ hne => absurd rfl hne⟩
    | cons id rest =>
      dsimp only
      generalize hr : { t with reapReady := rest }.reapOne id = r
      obtain ⟨hs, hc⟩ := reapOne_spec h hq hr
      obtain ⟨removed, t₁⟩ := r
      dsimp only at hc
      obtain ⟨l, hl, hcn, -⟩ := ih hs
      have hln : t.reapReady.length = rest.length + 1 := by rw [hq]; rfl
      rcases hc with ⟨rfl, ha, hr⟩ | ⟨rfl, hre, hr⟩
      · have hk : t₁.len = t.len := congrArg Finset.card (keys_of_alike ha)
        have hle : t₁.pendingReaps < t.pendingReaps := by
          rw [pendingReaps, pendingReaps, hr]
          omega
        refine ⟨l, ⟨hl.sound, hl.reaps.after ha, hl.pending.trans hle.le⟩, hcn,
          fun _ _ => lt_of_le_of_lt hl.pending hle⟩
      · have hk := len_of_reaped hre
        have hle : t₁.pendingReaps < t.pendingReaps := by
          rw [pendingReaps, pendingReaps]
          omega
        refine ⟨id :: l, ⟨hl.sound, .remove hre hl.reaps, hl.pending.trans hle.le⟩, ?_,
          fun _ _ => lt_of_le_of_lt hl.pending hle⟩
        rw [hcn]
        rfl

theorem reclaimLoop_spec (h : Sound t none) (fuel remaining : Nat) :
    ∃ l, Reclaimed t (reclaimLoop fuel remaining t) l ∧
      (0 < fuel → 0 < remaining → t.reapReady ≠ [] →
        (reclaimLoop fuel remaining t).pendingReaps < t.pendingReaps) := by
  induction fuel generalizing t remaining with
  | zero => exact ⟨[], ⟨h, .done (.refl t), Nat.le_refl _⟩, fun hpos => absurd hpos (by omega)⟩
  | succ fuel ih =>
    unfold reclaimLoop
    by_cases hzero : remaining = 0
    · rw [if_pos hzero]
      exact ⟨[], ⟨h, .done (.refl t), Nat.le_refl _⟩, fun _ hpos => absurd hpos (by omega)⟩
    rw [if_neg hzero]
    obtain ⟨l, hl, -, hle⟩ := reapFinalized_spec h (min remaining 32)
    have hle' := hle (by omega)
    dsimp only
    split
    · exact ⟨l, hl, fun _ _ => hle'⟩
    · obtain ⟨l', hl', -⟩ := ih hl.sound (remaining - min remaining 32)
      exact ⟨l ++ l', hl.trans hl', fun _ _ hne => lt_of_le_of_lt hl'.pending (hle' hne)⟩

theorem reclaimForAdmission_spec (h : Sound t none) : ∃ l, Reclaimed t t.reclaimForAdmission l ∧
      (t.reapReady ≠ [] → t.reclaimForAdmission.pendingReaps < t.pendingReaps) := by
  obtain ⟨l, hl, hle⟩ := reclaimLoop_spec h t.reapReady.length t.reapReady.length
  refine ⟨l, hl, fun hne => ?_⟩
  have hpos := length_pos_iff.mpr hne
  exact hle hpos hpos hne

/-! ## Repeated reclamation -/

structure Reclaiming (step : ProcessTable → ProcessTable) : Prop where
  idle : ∀ t, t.reapReady = [] → step t = t
  reclaims : ∀ t, Sound t none → ∃ l, Reclaimed t (step t) l ∧
    (t.reapReady ≠ [] → (step t).pendingReaps < t.pendingReaps)

theorem reclaiming_reclaimForAdmission : Reclaiming reclaimForAdmission where
  idle t hq := by
    rw [reclaimForAdmission, hq]
    rfl
  reclaims _ h := reclaimForAdmission_spec h

theorem reclaiming_reapFinalized {limit : Nat} (hli : 0 < limit) :
    Reclaiming fun t => (reapFinalized limit t).2 where
  idle t hq := by
    obtain ⟨n, rfl⟩ := Nat.exists_eq_succ_of_ne_zero hli.ne'
    show (reapFinalized (n + 1) t).2 = t
    rw [reapFinalized, hq]
  reclaims t h := by
    obtain ⟨l, hl, -, hle⟩ := reapFinalized_spec h limit
    exact ⟨l, hl, hle hli⟩

theorem Reclaiming.iterate (hs : Reclaiming step) (h : Sound t none) (hn : t.pendingReaps ≤ n) :
    ∃ l, Reclaimed t (step^[n] t) l ∧ (step^[n] t).reapReady = [] := by
  induction n generalizing t with
  | zero =>
    refine ⟨[], ⟨h, .done (.refl t), Nat.le_refl _⟩, length_eq_zero_iff.mp ?_⟩
    show t.reapReady.length = 0
    unfold pendingReaps at hn
    omega
  | succ n ih =>
    by_cases hq : t.reapReady = []
    · rw [Function.iterate_fixed (hs.idle t hq)]
      exact ⟨[], ⟨h, .done (.refl t), Nat.le_refl _⟩, hq⟩
    · obtain ⟨l, hl, hle⟩ := hs.reclaims t h
      have hlt := hle hq
      obtain ⟨l', hl', he⟩ := ih hl.sound (by omega)
      exact ⟨l ++ l', hl.trans hl', he⟩

/-! ## Whole subtrees -/

inductive Under (t : ProcessTable) (root : Nat) : Nat → Prop
  | self : Under t root root
  | child {id p : Nat} {e : ProcessEntry} (he : t.get id = some e) (hp : e.parent = some p)
      (h : Under t root p) : Under t root id

/-- Every retained member of a subtree is ready to go once its children are gone. -/
def Finished (t : ProcessTable) (root : Nat) : Prop :=
  ∀ id e, Under t root id → t.get id = some e → e.reapable = true ∧ t.tasks.lookup id = none

theorem Reaps.get_some (h : Reaps t l t') {e' : ProcessEntry}
    (hk : t'.get k = some e') : ∃ e, t.get k = some e ∧ e.core = e'.core := by
  have hba : ∀ {a b : ProcessTable} {e' : ProcessEntry}, (b.get k).map core = (a.get k).map core →
      b.get k = some e' → ∃ e, a.get k = some e ∧ e.core = e'.core := by
    intro a b e' hc hb
    rw [hb] at hc
    obtain ⟨e, he, heq⟩ := map_eq_some_iff.mp hc.symm
    exact ⟨e, he, heq⟩
  induction h with
  | done hd => exact hba (hd.core k) hk
  | @remove t t₁ _ id _ hr _ ih =>
    obtain ⟨e₁, he₁, heq⟩ := ih hk
    have hne : k ≠ id := by
      rintro rfl
      rw [hr.gone] at he₁
      cases he₁
    obtain ⟨e, he, heq'⟩ := hba (hr.core k hne) he₁
    exact ⟨e, he, heq'.trans heq⟩

theorem Reaps.tasks_eq (h : Reaps t l t') : t'.tasks = t.tasks := by
  induction h with
  | done hd => exact hd.tasks
  | remove hr _ ih => exact ih.trans hr.tasks

theorem Reaps.child_first (h : Reaps t l t') {c p : Nat} (hc : c ∈ t.childrenOf p)
    (hp : p ∈ l) : ∃ l₁ l₂, l = l₁ ++ c :: l₂ ∧ p ∈ l₂ := by
  induction h with
  | done => cases hp
  | @remove t t' _ id l hr _ ih =>
    have hne : p ≠ id := by
      rintro rfl
      rw [(canReap_iff.mp hr.eligible).2.2] at hc
      cases hc
    have hre := (mem_cons.mp hp).resolve_left hne
    by_cases hci : c = id
    · exact ⟨[], l, by rw [hci]; rfl, hre⟩
    · obtain ⟨l₁, l₂, rfl, hin⟩ := ih ((hr.children p c).mpr ⟨hc, hci⟩) hre
      exact ⟨id :: l₁, l₂, rfl, hin⟩

theorem finished_gone (h : Reclaimed t t' l) (hem : t'.reapReady = []) (hf : Finished t root)
    (hk : Under t root k) : t'.get k = none := by
  classical
  obtain ⟨rank, hra⟩ := h.sound.ranked
  by_contra hne
  obtain ⟨e, he⟩ := ne_none_iff_exists'.mp hne
  -- a remaining member of greatest rank has no children, so it would still be queued
  have hm : ∀ k, k ∈ t'.procs.keys.filter (Under t root) ↔
      (∃ e, t'.get k = some e) ∧ Under t root k := by
    intro k
    rw [Finset.mem_filter, Finmap.mem_keys_iff]
    rfl
  obtain ⟨top, hto, hma⟩ := Finset.exists_max_image (t'.procs.keys.filter (Under t root)) rank
    ⟨k, (hm k).mpr ⟨⟨e, he⟩, hk⟩⟩
  obtain ⟨⟨e', he'⟩, hu⟩ := (hm top).mp hto
  obtain ⟨e₀, he₀, hco⟩ := h.reaps.get_some he'
  obtain ⟨hre, ht⟩ := hf top e₀ hu he₀
  have hch : t'.childrenOf top = [] := by
    rw [eq_nil_iff_forall_not_mem]
    intro c hc
    obtain ⟨ec, hec, hpc⟩ := (h.sound.children top c).mp hc
    obtain ⟨ec₀, hec₀, hco'⟩ := h.reaps.get_some hec
    have hpc₀ : ec₀.parent = some top := (congrArg ProcessEntry.parent hco').trans hpc
    have hle := hma c ((hm c).mpr ⟨⟨ec, hec⟩, .child hec₀ hpc₀ hu⟩)
    have hlt := hra c ec top hec hpc
    omega
  have hca : t'.canReap top = true := by
    refine canReap_iff.mpr ⟨⟨e', he', ?_⟩, ?_, hch⟩
    · rw [← reapable_core e', ← hco]
      exact hre
    · rw [h.reaps.tasks_eq]
      exact ht
  have hr := h.sound.ready top hca nofun
  rw [hem] at hr
  cases hr

theorem Reclaiming.removes (hs : Reclaiming step) (h : Sound t none) (hf : Finished t root)
    (hn : t.pendingReaps ≤ n) (hk : Under t root k) : (step^[n] t).get k = none := by
  obtain ⟨l, hl, he⟩ := hs.iterate h hn
  exact finished_gone hl he hf hk

end ProcessTable
end Xolotl.Kernel
