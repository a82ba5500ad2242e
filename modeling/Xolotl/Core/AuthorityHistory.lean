import Xolotl.Core.AuthorityReclaim

/-! Whole runs of a handle table. A run is recorded as the list of its events,
newest first; the derivation tree lives in that record alone, and the invariant
below relates it to the reused slots of the table. -/

namespace Xolotl.Core

open Word List HandleTable

inductive HandleOp
  | install (owner resource : Nat) (methods : BitVec 64)
  | derive (parent : HandleKey) (owner child : Nat) (methods : BitVec 64)
  | release (key : HandleKey) (owner : Nat)
  | revoke (key : HandleKey) (owner : Nat)
  deriving DecidableEq, Repr

inductive HandleEvent
  | installed (owner resource : Nat) (methods : BitVec 64) (key : HandleKey)
  | derived (parent : HandleKey) (owner child : Nat) (methods : BitVec 64) (key : HandleKey)
  | released (key : HandleKey) (owner : Nat)
  | revoked (key : HandleKey) (owner : Nat)
  | rejected (op : HandleOp) (error : AuthorityError)
  deriving DecidableEq, Repr

def HandleEvent.issue : HandleEvent → Option HandleKey
  | .installed _ _ _ key => some key
  | .derived _ _ _ _ key => some key
  | _ => none

def HandleTable.apply (t : HandleTable) : HandleOp → HandleTable × HandleEvent
  | .install owner resource methods =>
    match t.install owner resource methods with
    | .ok (t', key) => (t', .installed owner resource methods key)
    | .error e => (t, .rejected (.install owner resource methods) e)
  | .derive parent owner child methods =>
    match t.derive parent owner child methods with
    | .ok (t', key) => (t', .derived parent owner child methods key)
    | .error e => (t, .rejected (.derive parent owner child methods) e)
  | .release key owner =>
    match t.release key owner with
    | .ok t' => (t', .released key owner)
    | .error e => (t, .rejected (.release key owner) e)
  | .revoke key owner =>
    match t.revoke key owner with
    | .ok t' => (t', .revoked key owner)
    | .error e => (t, .rejected (.revoke key owner) e)

inductive Reaches (n : Nat) : List HandleEvent → HandleTable → Prop
  | start : Reaches n [] (.vacant n)
  | step {h : List HandleEvent} {t : HandleTable} (op : HandleOp) (hr : Reaches n h t) :
      Reaches n ((t.apply op).2 :: h) (t.apply op).1

/-- The recorded derivation of a key: its owner, its resource, and the method
bitmaps from the key itself back to the installed root. -/
inductive Lineage (h : List HandleEvent) :
    HandleKey → Nat → Nat → List (HandleKey × BitVec 64) → Prop
  | installed {owner resource : Nat} {methods : BitVec 64} {key : HandleKey}
      (he : .installed owner resource methods key ∈ h) :
      Lineage h key owner resource [(key, methods)]
  | derived {parent key : HandleKey} {owner child resource : Nat} {methods : BitVec 64}
      {chain : List (HandleKey × BitVec 64)}
      (he : .derived parent owner child methods key ∈ h)
      (hp : Lineage h parent owner resource chain) :
      Lineage h key child resource ((key, methods) :: chain)

variable (h : List HandleEvent)

def Released (key : HandleKey) : Prop := ∃ owner, .released key owner ∈ h

def Revoked (key : HandleKey) : Prop := ∃ owner, .revoked key owner ∈ h

def AllGivenUp : Prop :=
  ∀ e ∈ h, ∀ key, e.issue = some key → Released h key ∨ Revoked h key

variable {h : List HandleEvent} {key : HandleKey} {owner resource method : Nat}
  {chain : List (HandleKey × BitVec 64)} {t t' : HandleTable}

theorem Lineage.mono {h' : List HandleEvent} (hs : h ⊆ h')
    (hl : Lineage h key owner resource chain) : Lineage h' key owner resource chain := by
  induction hl with
  | installed he => exact .installed (hs he)
  | derived he _ ih => exact .derived (hs he) ih

theorem Lineage.eq_cons (hl : Lineage h key owner resource chain) :
    ∃ methods rest, chain = (key, methods) :: rest := by
  cases hl with
  | installed _ | derived _ _ => exact ⟨_, _, rfl⟩

def IssuedOnce (h : List HandleEvent) : Prop :=
  ∀ e ∈ h, ∀ e' ∈ h, ∀ key, e.issue = some key → e'.issue = some key → e = e'

theorem Lineage.unique (ho : IssuedOnce h)
    {owner' resource' : Nat} {chain' : List (HandleKey × BitVec 64)}
    (hl : Lineage h key owner resource chain) (hl' : Lineage h key owner' resource' chain') :
    owner = owner' ∧ resource = resource' ∧ chain = chain' := by
  induction hl generalizing owner' resource' chain' with
  | installed he =>
    cases hl' with
    | installed he' =>
      have heq := ho _ he _ he' _ rfl rfl
      cases heq
      exact ⟨rfl, rfl, rfl⟩
    | derived he' _ =>
      have heq := ho _ he _ he' _ rfl rfl
      cases heq
  | derived he _ ih =>
    cases hl' with
    | installed he' =>
      have heq := ho _ he _ he' _ rfl rfl
      cases heq
    | derived he' hp' =>
      have heq := ho _ he _ he' _ rfl rfl
      cases heq
      obtain ⟨-, hr, hc⟩ := ih hp'
      exact ⟨rfl, hr, by rw [hc]⟩

/-! ## The invariant -/

structure Traced (h : List HandleEvent) (t : HandleTable) : Prop where
  balanced : t.Balanced none
  issued_old : ∀ e ∈ h, ∀ key, e.issue = some key →
    key.generation ≤ (t.slotAt key.slot).generation
  dropped_old : ∀ key, Released h key ∨ Revoked h key →
    key.generation ≤ (t.slotAt key.slot).generation
  once : IssuedOnce h
  slot_lineage : ∀ i, (t.slotAt i).state ≠ .vacant → ∃ chain,
    Lineage h ⟨i, (t.slotAt i).generation⟩ (t.handleAt i).owner (t.handleAt i).resource
      ((⟨i, (t.slotAt i).generation⟩, (t.handleAt i).methods) :: chain) ∧
    (t.slotAt i).parent = chain.head?.map Prod.fst
  active_kept : ∀ i, (t.slotAt i).state = .active → ¬ Released h ⟨i, (t.slotAt i).generation⟩
  retained_kept : ∀ i, (t.slotAt i).state ≠ .vacant → ¬ Revoked h ⟨i, (t.slotAt i).generation⟩
  narrowed : ∀ parent owner child methods key, .derived parent owner child methods key ∈ h →
    ∃ resource methods' chain, Lineage h parent owner resource ((parent, methods') :: chain) ∧
      methods &&& ~~~methods' = 0

theorem traced_vacant (n : Nat) : Traced [] (.vacant n) := by
  refine ⟨balanced_vacant n, by simp, by simp [Released, Revoked], by simp [IssuedOnce],
    fun i hi => ?_, fun i hi => ?_, fun i hi => ?_, by simp⟩
  all_goals rw [slotAt_vacant] at hi; simp at hi

variable {e : HandleEvent} {methods : BitVec 64} {pending : Option HandleKey}

theorem released_cons :
    Released (e :: h) key ↔ (∃ owner, e = .released key owner) ∨ Released h key := by
  simp only [Released, mem_cons, exists_or, eq_comm]

theorem revoked_cons :
    Revoked (e :: h) key ↔ (∃ owner, e = .revoked key owner) ∨ Revoked h key := by
  simp only [Revoked, mem_cons, exists_or, eq_comm]

section

variable (ht : Traced h t)
include ht

theorem Traced.quiet (hb : t'.Balanced none) (hi : e.issue = none) (hke : t.Kept t')
    (hold : ∀ k : HandleKey, (∃ owner, e = .released k owner ∨ e = .revoked k owner) →
      k.generation ≤ (t.slotAt k.slot).generation)
    (ha : ∀ j, (t'.slotAt j).state = .active → (t.slotAt j).state = .active ∧
      ∀ owner, e ≠ .released ⟨j, (t.slotAt j).generation⟩ owner)
    (hre : ∀ j, (t'.slotAt j).state ≠ .vacant →
      ∀ owner, e ≠ .revoked ⟨j, (t.slotAt j).generation⟩ owner) : Traced (e :: h) t' := by
  have hsu : h ⊆ e :: h := subset_cons_self _ _
  have hme : ∀ e' ∈ e :: h, ∀ {k}, e'.issue = some k → e' ∈ h := by
    intro e' he' k hk
    rcases mem_cons.mp he' with rfl | he'
    · rw [hi] at hk
      cases hk
    · exact he'
  refine ⟨hb, fun e' he' k hk => ?_, fun k hk => ?_, ?_, fun j hj => ?_, fun j hj hr => ?_,
    fun j hj hr => ?_, ?_⟩
  · rw [(hke.handle _).2]
    exact ht.issued_old e' (hme e' he' hk) k hk
  · rw [(hke.handle _).2]
    rw [released_cons, revoked_cons] at hk
    rcases hk with (⟨o, he⟩ | hk) | ⟨o, he⟩ | hk
    · exact hold k ⟨o, .inl he⟩
    · exact ht.dropped_old k (.inl hk)
    · exact hold k ⟨o, .inr he⟩
    · exact ht.dropped_old k (.inr hk)
  · intro e₁ he₁ e₂ he₂ k hk₁ hk₂
    exact ht.once _ (hme e₁ he₁ hk₁) _ (hme e₂ he₂ hk₂) k hk₁ hk₂
  · obtain ⟨hs, hp⟩ := hke.slot j hj
    obtain ⟨chain, hl, hpa⟩ := ht.slot_lineage j hs
    rw [(hke.handle j).2, (hke.handle j).1, hp]
    exact ⟨chain, hl.mono hsu, hpa⟩
  · obtain ⟨hs, hne⟩ := ha j hj
    rw [(hke.handle j).2, released_cons] at hr
    rcases hr with ⟨o, he⟩ | hr
    · exact hne o he
    · exact ht.active_kept j hs hr
  · rw [(hke.handle j).2, revoked_cons] at hr
    rcases hr with ⟨o, he⟩ | hr
    · exact hre j hj o he
    · exact ht.retained_kept j (hke.slot j hj).1 hr
  · intro p o c m k hk
    obtain ⟨r, m', c', hlp, hm⟩ := ht.narrowed _ _ _ _ _ (hme _ hk rfl)
    exact ⟨r, m', c', hlp.mono hsu, hm⟩

theorem Traced.reject (op : HandleOp)
    (error : AuthorityError) : Traced (.rejected op error :: h) t :=
  ht.quiet ht.balanced rfl ⟨fun _ => ⟨rfl, rfl⟩, fun _ hj => ⟨hj, rfl⟩⟩ (by simp)
    (fun _ hj => ⟨hj, nofun⟩) fun _ _ => nofun

theorem Traced.issue {parent : Option HandleKey}
    (hb : t'.Balanced none) (hi : t.Issued t' owner resource methods parent key)
    (hke : e.issue = some key) (hl : Lineage (e :: h) key owner resource ((key, methods) :: chain))
    (hp : parent = chain.head?.map Prod.fst)
    (hn : ∀ parent owner child methods key, e = .derived parent owner child methods key →
      ∃ resource methods' chain, Lineage h parent owner resource ((parent, methods') :: chain) ∧
        methods &&& ~~~methods' = 0) : Traced (e :: h) t' := by
  have hsu : h ⊆ e :: h := subset_cons_self _ _
  have hrl : ∀ k, Released (e :: h) k ↔ Released h k := fun k =>
    released_cons.trans (or_iff_right (by rintro ⟨o, rfl⟩; cases hke))
  have hre : ∀ k, Revoked (e :: h) k ↔ Revoked h k := fun k =>
    revoked_cons.trans (or_iff_right (by rintro ⟨o, rfl⟩; cases hke))
  have hs := hi.slotAt_self
  -- The new generation is above everything recorded for its slot.
  have hf : ∀ k : HandleKey, k.generation ≤ (t.slotAt k.slot).generation → k ≠ key := by
    rintro k hk rfl
    have := hi.generation
    omega
  refine ⟨hb, ?_, ?_, ?_, ?_, ?_, ?_, ?_⟩
  · intro e' he k hk
    rcases mem_cons.mp he with rfl | he
    · cases hke.symm.trans hk
      rw [hs]
    · exact (ht.issued_old e' he k hk).trans (hi.generation_le _)
  · intro k hk
    rw [hrl, hre] at hk
    exact (ht.dropped_old k hk).trans (hi.generation_le _)
  · intro e₁ he₁ e₂ he₂ k hk₁ hk₂
    rcases mem_cons.mp he₁ with rfl | hm₁ <;> rcases mem_cons.mp he₂ with rfl | hm₂
    · rfl
    · cases hke.symm.trans hk₁
      exact absurd rfl (hf _ (ht.issued_old _ hm₂ _ hk₂))
    · cases hke.symm.trans hk₂
      exact absurd rfl (hf _ (ht.issued_old _ hm₁ _ hk₁))
    · exact ht.once _ hm₁ _ hm₂ k hk₁ hk₂
  · intro j hj
    rcases eq_or_ne j key.slot with rfl | hjk
    · rw [hs, hi.issued]
      exact ⟨chain, hl, hp⟩
    · rw [hi.slotAt_other hjk] at hj ⊢
      obtain ⟨c, hlj, hpj⟩ := ht.slot_lineage j hj
      rw [hi.handleAt_other hjk]
      exact ⟨c, hlj.mono hsu, hpj⟩
  · intro j hj
    rw [hrl]
    rcases eq_or_ne j key.slot with rfl | hjk
    · rw [hs]
      exact fun hr => hf _ (ht.dropped_old _ (.inl hr)) rfl
    · rw [hi.slotAt_other hjk] at hj ⊢
      exact ht.active_kept j hj
  · intro j hj
    rw [hre]
    rcases eq_or_ne j key.slot with rfl | hjk
    · rw [hs]
      exact fun hr => hf _ (ht.dropped_old _ (.inr hr)) rfl
    · rw [hi.slotAt_other hjk] at hj ⊢
      exact ht.retained_kept j hj
  · intro p o c m k he
    rcases mem_cons.mp he with he | he
    · obtain ⟨r, m', c', hlp, hm⟩ := hn _ _ _ _ _ he.symm
      exact ⟨r, m', c', hlp.mono hsu, hm⟩
    · obtain ⟨r, m', c', hlp, hm⟩ := ht.narrowed _ _ _ _ _ he
      exact ⟨r, m', c', hlp.mono hsu, hm⟩

theorem Traced.lineage (hr : (t.slotAt key.slot).retains key.generation = true) : ∃ chain,
      Lineage h key (t.handleAt key.slot).owner (t.handleAt key.slot).resource
        ((key, (t.handleAt key.slot).methods) :: chain) ∧
      (t.slotAt key.slot).parent = chain.head?.map Prod.fst ∧ ¬ Revoked h key := by
  obtain ⟨hs, hg⟩ := retains_iff.mp hr
  obtain ⟨chain, hl, hp⟩ := ht.slot_lineage key.slot hs
  have hk := ht.retained_kept key.slot hs
  rw [hg] at hl hk
  exact ⟨chain, hl, hp, hk⟩

theorem Traced.drop (hb : t'.Balanced none)
    (hd : t.Dropped t' key) (hr : (t.slotAt key.slot).retains key.generation = true)
    (he : e = .released key owner ∨
      (e = .revoked key owner ∧ (t'.slotAt key.slot).state = .vacant)) : Traced (e :: h) t' := by
  have hi : e.issue = none := by rcases he with rfl | ⟨rfl, -⟩ <;> rfl
  refine ht.quiet hb hi hd.toKept ?_ (fun j hj => ⟨(hd.active j hj).1, ?_⟩) ?_
  · have hold := (retains_iff.mp hr).2.ge
    rintro k ⟨o, hk⟩
    rcases he with rfl | ⟨rfl, -⟩ <;> rcases hk with hk | hk <;> cases hk
    · exact hold
    · exact hold
  · rintro o rfl
    rcases he with he | ⟨he, -⟩ <;> cases he
    exact (hd.active j hj).2 rfl
  · rintro j hj o rfl
    rcases he with he | ⟨he, hv⟩ <;> cases he
    exact hj hv

theorem Traced.apply (op : HandleOp) : Traced ((t.apply op).2 :: h) (t.apply op).1 := by
  cases op with
  | install owner resource methods =>
    rcases hi : t.install owner resource methods with e | ⟨t', key⟩ <;>
      simp only [HandleTable.apply, hi]
    · exact ht.reject _ e
    · have his := issued_of_installWithParent hi
      exact ht.issue (ht.balanced.issue his (by simp)) his rfl
        (.installed (mem_cons_self ..)) rfl (by simp)
  | derive parent owner child methods =>
    rcases hi : t.derive parent owner child methods with e | ⟨t', key⟩ <;>
      simp only [HandleTable.apply, hi]
    · exact ht.reject _ e
    · obtain ⟨hb, hli, rfl, hme, his⟩ := ht.balanced.derive hi
      obtain ⟨chain, hl, -⟩ := ht.lineage (retains_of_isMatch hli.1)
      refine ht.issue hb his rfl
        (.derived (mem_cons_self ..) (hl.mono (subset_cons_self _ _))) rfl ?_
      rintro _ _ _ _ _ ⟨⟩
      exact ⟨_, _, chain, hl, hme⟩
  | release key owner =>
    rcases hi : t.release key owner with e | t' <;> simp only [HandleTable.apply, hi]
    · exact ht.reject _ e
    · obtain ⟨hb, hd, hm, -⟩ := ht.balanced.release hi
      exact ht.drop hb hd (retains_of_isMatch hm) (.inl rfl)
  | revoke key owner =>
    rcases hi : t.revoke key owner with e | t' <;> simp only [HandleTable.apply, hi]
    · exact ht.reject _ e
    · obtain ⟨hb, hd, hr, hv⟩ := ht.balanced.revoke hi
      exact ht.drop hb hd hr (.inr ⟨rfl, hv⟩)

omit ht in
theorem Reaches.traced {n : Nat} (hr : Reaches n h t) : Traced h t := by
  induction hr with
  | start => exact traced_vacant n
  | step op _ ih => exact ih.apply op

/-! ## Authority -/

theorem Traced.not_revoked (ha : t.Anchored key) (hl : Lineage h key owner resource chain) :
    ∀ k m, (k, m) ∈ chain → ¬ Revoked h k := by
  intro k m hkm
  induction hl with
  | installed he =>
    cases mem_singleton.mp hkm
    exact (ht.lineage ha.retains).choose_spec.2.2
  | derived he hp ih =>
    obtain ⟨rest, hl', hpa, hke⟩ := ht.lineage ha.retains
    rcases mem_cons.mp hkm with hk | hk
    · cases hk
      exact hke
    · obtain ⟨-, -, heq⟩ := (Lineage.derived he hp).unique ht.once hl'
      obtain ⟨methods, rest', rfl⟩ := hp.eq_cons
      cases heq
      exact ih (ha.parent hpa) hk

theorem Traced.rights (hl : Lineage h key owner resource ((key, methods) :: chain))
    (hm : methods.getLsbD method = true) : ∀ k m, (k, m) ∈ chain → m.getLsbD method = true := by
  induction chain generalizing key owner resource methods with
  | nil => simp
  | cons head rest ih =>
    cases hl with
    | derived he hlp =>
      obtain ⟨methods', rest', heq⟩ := hlp.eq_cons
      cases heq
      obtain ⟨_, _, _, hl', hs⟩ := ht.narrowed _ _ _ _ _ he
      obtain ⟨-, -, heq⟩ := hlp.unique ht.once hl'
      cases heq
      have hm' : methods'.getLsbD method = true := by
        have hb := congrArg (BitVec.getLsbD · method) hs
        have hlt : method < 64 := BitVec.lt_of_getLsbD hm
        simpa [hm, hlt] using hb
      intro k m hkm
      rcases mem_cons.mp hkm with hkm | hkm
      · cases hkm
        exact hm'
      · exact ih hlp hm' k m hkm

omit ht in
theorem authorize_ok (hb : t.Balanced pending)
    (ha : t.authorize key owner method = .ok resource) : t.Live key ∧
      (t.handleAt key.slot).owner = owner ∧ (t.handleAt key.slot).resource = resource ∧
      (t.handleAt key.slot).methods.getLsbD method = true := by
  unfold HandleTable.authorize at ha
  split at ha
  · cases ha
  · next hd hg =>
    obtain ⟨hl, rfl, ho⟩ := get_ok hb hg
    split at ha
    · cases ha
    · next hlt =>
      split at ha
      · cases ha
      · next hbi =>
        cases ha
        refine ⟨hl, ho, rfl, ?_⟩
        by_contra hc
        apply hbi
        ext i hi
        by_cases hmi : i = method
        · subst hmi
          simp [BitVec.getLsbD_eq_getElem hi] at hc
          simp [hc]
        · simp
          omega

theorem Traced.lineage_of_authorize
    (ha : t.authorize key owner method = .ok resource) : t.Live key ∧ ∃ methods chain,
      Lineage h key owner resource ((key, methods) :: chain) ∧
      methods.getLsbD method = true := by
  obtain ⟨hli, rfl, rfl, hb⟩ := authorize_ok ht.balanced ha
  obtain ⟨chain, hl, -⟩ := ht.lineage (retains_of_isMatch hli.1)
  exact ⟨hli, _, chain, hl, hb⟩

end

/-- Authority is sound over whole runs. An authorized key was issued to its
owner for its resource, was given up by nobody, descends from handles none of
which was revoked and all of which have the method; and nothing derived from a
revoked key is authorized, whatever slots have been reused since. -/
theorem authorize_sound {n : Nat} {h : List HandleEvent} {t : HandleTable} (hr : Reaches n h t)
    (key : HandleKey) (owner method : Nat) :
    (∀ resource, t.authorize key owner method = .ok resource →
      ∃ chain, Lineage h key owner resource chain ∧ ¬ Released h key ∧ ¬ Revoked h key ∧
        ∀ k methods, (k, methods) ∈ chain → ¬ Revoked h k ∧ methods.getLsbD method = true) ∧
    (∀ k owner' resource' chain, Revoked h k → Lineage h key owner' resource' chain →
      k ∈ chain.map Prod.fst → ∀ resource, t.authorize key owner method ≠ .ok resource) := by
  have ht := hr.traced
  refine ⟨fun resource ha => ?_, fun k owner' resource' chain hk hl hmem resource ha => ?_⟩
  · obtain ⟨hlive, methods, chain, hl, hbit⟩ := ht.lineage_of_authorize ha
    have hrevoked := ht.not_revoked hlive.2 hl
    obtain ⟨hact, hgen⟩ := isMatch_iff.mp hlive.1
    have hpk : (⟨key.slot, (t.slotAt key.slot).generation⟩ : HandleKey) = key := by rw [hgen]
    refine ⟨_, hl, hpk ▸ ht.active_kept key.slot hact,
      hrevoked key methods (mem_cons_self ..), fun k m hkm => ⟨hrevoked k m hkm, ?_⟩⟩
    rcases mem_cons.mp hkm with hkm | hkm
    · cases hkm
      exact hbit
    · exact ht.rights hl hbit k m hkm
  · obtain ⟨hlive, -⟩ := ht.lineage_of_authorize ha
    obtain ⟨⟨k', m⟩, hkm, rfl⟩ := mem_map.mp hmem
    exact ht.not_revoked hlive.2 hl k' m hkm hk

theorem authorize_sound_delegated : ∃ h t, Reaches 2 h t ∧
    t.authorize ⟨1, 1⟩ 20 0 = .ok 7 ∧ Released h ⟨0, 1⟩ ∧
    ∃ chain, Lineage h ⟨1, 1⟩ 20 7 chain ∧ ¬ Released h ⟨1, 1⟩ ∧ ¬ Revoked h ⟨1, 1⟩ ∧
      ∀ k methods, (k, methods) ∈ chain → ¬ Revoked h k ∧ methods.getLsbD 0 = true := by
  have hr := Reaches.step (.release ⟨0, 1⟩ 10)
    (.step (.derive ⟨0, 1⟩ 10 20 1#64) (.step (.install 10 7 3#64) (.start (n := 2))))
  exact ⟨_, _, hr, rfl, ⟨10, mem_cons_self ..⟩, (authorize_sound hr ⟨1, 1⟩ 20 0).1 7 rfl⟩

/-! ## Reclamation -/

def AncestorsRetained (t : HandleTable) (key : HandleKey) : Prop :=
  ∀ k, Walk.Visits (fun k : HandleKey => (t.slotAt k.slot).parent) key k →
    (t.slotAt k.slot).retains k.generation = true

theorem AncestorsRetained.anchored (hb : t.Balanced pending) (h : AncestorsRetained t key) :
    t.Anchored key := by
  obtain ⟨n, hn⟩ := hb.ends key.slot
  induction n generalizing key with
  | zero => simp at hn
  | succ n ih =>
    have hr := h key Walk.visits_refl
    rcases hp : (t.slotAt key.slot).parent with _ | p
    · exact .root hr hp
    · refine .child hr hp (ih (fun k hk => ?_) ?_)
      · exact h k (Walk.visits_iff.mpr (.inr ⟨p, hp, hk⟩))
      · rw [Walk.walk_succ_eq, HandleTable.up, hp] at hn
        exact hn

theorem HandleTable.Balanced.authorize_congr (hb : t.Balanced none)
    (hb' : t'.Balanced none) (hli : t'.Live key ↔ t.Live key)
    (hh : t'.handleAt key.slot = { t.handleAt key.slot with slot := t'.slotAt key.slot })
    (owner method : Nat) : t'.authorize key owner method = t.authorize key owner method := by
  classical
  unfold HandleTable.authorize
  rw [hb.get_eq, hb'.get_eq, hh]
  simp only [hli]
  by_cases hl : t.Live key
  · by_cases ho : (t.handleAt key.slot).owner = owner <;> simp [hl, ho]
  · simp [hl]

theorem Traced.all_vacant (ht : Traced h t)
    (ha : AllGivenUp h) (i : Nat) : (t.slotAt i).state = .vacant := by
  have hac : ∀ j, (t.slotAt j).state ≠ .active := by
    intro j hj
    have hne : (t.slotAt j).state ≠ .vacant := by simp [hj]
    obtain ⟨chain, hl, -⟩ := ht.slot_lineage j hne
    obtain ⟨e, he, hk⟩ : ∃ e ∈ h, e.issue = some ⟨j, (t.slotAt j).generation⟩ := by
      cases hl with
      | installed he | derived he _ => exact ⟨_, he, rfl⟩
    rcases ha e he _ hk with hr | hr
    · exact ht.active_kept j hj hr
    · exact ht.retained_kept j hne hr
  have hre : ∀ j, (t.slotAt j).state ≠ .vacant → (t.slotAt j).state = .released := by
    intro j hj
    cases hs : (t.slotAt j).state <;> simp_all
  -- A released slot has a child, which is released too: an endless descent.
  let s := {j ∈ Finset.range t.slots.length | (t.slotAt j).state ≠ .vacant}
  have hem : s = ∅ := by
    refine Walk.eq_empty_of_predecessors (u := Finset.range t.slots.length) ht.balanced.ends
      (fun x hx => ?_) (fun x hx y hy => ?_)
    · have hx' := (Finset.mem_filter.mp hx).2
      have hpos := ht.balanced.released_held x (hre x hx')
      rw [ht.balanced.counted x hx'] at hpos
      simp only [reduceCtorEq, if_false, Nat.add_zero] at hpos
      obtain ⟨j, hj⟩ := Finset.card_pos.mp hpos
      obtain ⟨hle, hp⟩ := mem_childrenOf.mp hj
      refine ⟨j, Finset.mem_filter.mpr ⟨Finset.mem_range.mpr hle, fun hv => ?_⟩, ?_⟩
      · rw [(ht.balanced.vacant_clean j hv).1] at hp
        cases hp
      · simp [HandleTable.up, hp]
    · refine hy.closed (p := (· ∈ Finset.range t.slots.length)) (fun a b _ hab => ?_)
        (Finset.mem_filter.mp hx).1
      obtain ⟨p, hp, rfl⟩ := Option.map_eq_some_iff.mp hab
      exact Finset.mem_range.mpr (ht.balanced.parent_old a p hp).2
  by_contra hi
  have hm : i ∈ s := Finset.mem_filter.mpr ⟨Finset.mem_range.mpr (lt_length_of_not_vacant hi), hi⟩
  rw [hem] at hm
  simp at hm

/-- Release and reclamation are exact and complete. Counters are the numbers of
children, no released slot is kept without one, parent links are acyclic so that
the bounded validation never rejects a retained chain, a release changes the
authority of no other key, and when all handles are given up every slot with a
generation left can be installed again. -/
theorem reclaim_exact {n : Nat} {h : List HandleEvent} {t : HandleTable} (hr : Reaches n h t) :
    (∀ i, (t.slotAt i).state ≠ .vacant → (t.slotAt i).children =
      {j ∈ Finset.range t.slots.length | (t.slotAt j).state ≠ .vacant ∧
        (t.slotAt j).parent = some ⟨i, (t.slotAt i).generation⟩}.card) ∧
    (∀ i, (t.slotAt i).state = .released → (t.slotAt i).children ≠ 0) ∧
    (∀ i a b x, Walk.walk t.up i a = some x → Walk.walk t.up i b = some x → a = b) ∧
    (∀ key, (t.slotAt key.slot).isMatch key.generation = true → AncestorsRetained t key →
      (t.slotAt key.slot).validate key.generation t.slots.length t.lookup = .ok ()) ∧
    (∀ k owner t', t.release k owner = .ok t' → ∀ key, key ≠ k → ∀ owner' method,
      t'.authorize key owner' method = t.authorize key owner' method) ∧
    (AllGivenUp h → ∀ i, (t.slotAt i).generation < u64Max → (t.slotAt i).reusable = true) := by
  have ht := hr.traced
  have hb := ht.balanced
  refine ⟨fun i hi => ?_, fun i hi => (hb.released_held i hi).ne', fun i a b x ha hb' =>
    Walk.walk_injective (hb.ends i) ha hb', fun key hm hret => ?_,
    fun k owner t' hrel key hk owner' method => ?_, fun hall i hi => ?_⟩
  · rw [hb.counted i hi]
    simp only [reduceCtorEq, if_false, Nat.add_zero]
    congr 1
    ext j
    simp only [mem_childrenOf, Finset.mem_filter, Finset.mem_range]
    refine ⟨fun hj => ⟨hj.1, fun hv => ?_, hj.2⟩, fun hj => ⟨hj.1, hj.2.2⟩⟩
    rw [(hb.vacant_clean j hv).1] at hj
    cases hj.2
  · rw [HandleSlot.validate, hm]
    have ha := hret.anchored hb
    rcases hp : (t.slotAt key.slot).parent with _ | p
    · simp [HandleSlot.validateAncestors]
    · exact (hb.validateAncestors_iff p).mpr (ha.parent hp)
  · obtain ⟨hb', hd, -, hlive⟩ := hb.release hrel
    exact hb.authorize_congr hb' (hlive key hk) (hd.handle key.slot).1 owner' method
  · simp [HandleSlot.reusable, ht.all_vacant hall i, hi]

theorem reclaim_exact_cascade : ∃ h t, Reaches 2 h t ∧ AllGivenUp h ∧ h.length = 4 ∧
    (t.slotAt 0).reusable = true ∧ (t.slotAt 1).reusable = true := by
  have hr := Reaches.step (.release ⟨1, 1⟩ 20) (.step (.release ⟨0, 1⟩ 10)
    (.step (.derive ⟨0, 1⟩ 10 20 1#64) (.step (.install 10 7 3#64) (.start (n := 2)))))
  have hall : AllGivenUp [.released ⟨1, 1⟩ 20, .released ⟨0, 1⟩ 10,
      .derived ⟨0, 1⟩ 10 20 1#64 ⟨1, 1⟩, .installed 10 7 3#64 ⟨0, 1⟩] := by
    intro e he key hk
    simp only [mem_cons, not_mem_nil, or_false] at he
    rcases he with rfl | rfl | rfl | rfl <;> cases hk <;> simp [Released]
  have hreuse := (reclaim_exact hr).2.2.2.2.2 hall
  exact ⟨_, _, hr, hall, rfl, hreuse 0 (by decide), hreuse 1 (by decide)⟩

end Xolotl.Core
