import Xolotl.Kernel.ProcessOps
import Xolotl.Lib.Fallible

/-! Reservations and settlements walk the chain of accounts from a process to its root.
A reservation debits the whole chain or leaves the table as it was; a settlement of an
outstanding call reaches the chain that was debited. -/

namespace Xolotl.Kernel

open Word List BudgetState

/-! ## One account -/

namespace BudgetState

def debit (microUsd tokens : Nat) (b : BudgetState) : BudgetState where
  spentMicroUsd := b.spentMicroUsd + microUsd
  inflightOps := b.inflightOps + 1
  inferenceTokens := b.inferenceTokens + tokens

structure Within (b : BudgetState) (spec : BudgetSpec) : Prop where
  microUsd : ∀ max, spec.maxMicroUsd = some max → b.spentMicroUsd ≤ max
  inflightOps : ∀ max, spec.maxInflightOps = some max → b.inflightOps ≤ max
  inferenceTokens : ∀ max, spec.maxInferenceTokens = some max → b.inferenceTokens ≤ max

structure Fits (b : BudgetState) : Prop where
  microUsd : b.spentMicroUsd ≤ u64Max
  inferenceTokens : b.inferenceTokens ≤ u64Max

theorem project_ok {name : String} {wordMax used amount : Nat} {max : Option Nat} {n : Nat}
    (h : project name wordMax used amount max = .ok n) :
    n = used + amount ∧ used + amount ≤ wordMax ∧ ∀ m, max = some m → used + amount ≤ m := by
  unfold project at h
  split_ifs at h with hw hm
  obtain rfl := Except.ok.inj h
  refine ⟨rfl, not_lt.mp hw, ?_⟩
  rintro m rfl
  simp only [Option.any_some, decide_eq_true_eq] at hm
  exact not_lt.mp hm

variable {microUsd tokens : Nat}

theorem tryReserve_ok {b b' : BudgetState} {spec : BudgetSpec}
    (h : b.tryReserve spec microUsd tokens = .ok b') :
    b' = b.debit microUsd tokens ∧ b'.Within spec ∧ b'.Fits := by
  simp only [tryReserve, Fallible.bind_ok] at h
  obtain ⟨_, hi, _, hu, _, ht, h⟩ := h
  obtain rfl := Except.ok.inj h
  obtain ⟨rfl, -, hil⟩ := project_ok hi
  obtain ⟨rfl, huw, hul⟩ := project_ok hu
  obtain ⟨rfl, htw, htl⟩ := project_ok ht
  exact ⟨rfl, ⟨hul, hil, htl⟩, ⟨huw, htw⟩⟩

theorem settle_debit {b : BudgetState} (h : (b.debit microUsd tokens).Fits) :
    (b.debit microUsd tokens).settle microUsd 0 tokens 0 = b := by
  have hu : b.spentMicroUsd + microUsd ≤ u64Max := h.microUsd
  have ht : b.inferenceTokens + tokens ≤ u64Max := h.inferenceTokens
  simp only [settle, debit, Nat.add_sub_cancel, Nat.add_zero]
  rw [Nat.min_eq_left (by omega), Nat.min_eq_left (by omega)]

end BudgetState

namespace ProcessTable

open ProcessEntry

variable {t t' t'' : ProcessTable} {id : Nat} {o : Option Nat} {l : List Nat}

theorem reserveScope_ok {s scope : Scope} {mode : ReserveMode} {reserved microUsd tokens : Nat}
    (h : reserveScope s mode reserved microUsd tokens = .ok scope) :
    scope = { s with budget := s.budget.debit microUsd tokens } ∧
      scope.budget.Within s.limits ∧ scope.budget.Fits := by
  have hc : s.charge microUsd tokens = .ok scope := by
    unfold reserveScope Scope.reserveFinalizer Scope.reserveCleanup
      Scope.reserve at h
    split_ifs at h
    all_goals exact h
  unfold Scope.charge at hc
  cases hb : s.budget.tryReserve s.limits microUsd tokens with
  | error e =>
    rw [hb] at hc
    cases hc
  | ok budget =>
    rw [hb] at hc
    obtain rfl := Except.ok.inj hc
    obtain ⟨heq, hw, hf⟩ := tryReserve_ok hb
    exact ⟨by rw [heq], hw, hf⟩

/-! ## Chains of accounts -/

inductive Chain (t : ProcessTable) : Option Nat → List Nat → Prop
  | root : Chain t none []
  | account {id : Nat} {e : ProcessEntry} {l : List Nat} (he : t.get id = some e)
      (h : Chain t e.parent l) : Chain t (some id) (id :: l)

variable {k : Nat} {e : ProcessEntry}

theorem Chain.mem_get (h : Chain t o l) (hk : k ∈ l) : ∃ e, t.get k = some e := by
  induction h with
  | root => cases hk
  | account he _ ih =>
    rcases mem_cons.mp hk with rfl | hk
    · exact ⟨_, he⟩
    · exact ih hk

theorem Chain.congr (h : Chain t o l)
    (hs : ∀ k ∈ l, ∀ e, t.get k = some e → ∃ e', t'.get k = some e' ∧ e'.parent = e.parent) :
    Chain t' o l := by
  induction h with
  | root => exact .root
  | @account id e l he _ ih =>
    obtain ⟨e', he', hp⟩ := hs id mem_cons_self e he
    refine .account he' ?_
    rw [hp]
    exact ih fun k hk => hs k (mem_cons_of_mem _ hk)

theorem Chain.exists (h : Tree t) (he : t.get id = some e) :
    ∃ l, Chain t (some id) l := by
  obtain ⟨rank, hr⟩ := h.ranked
  -- parents have smaller rank
  induction hn : rank id using Nat.strong_induction_on generalizing id e with
  | _ n ih =>
    cases hp : e.parent with
    | none => exact ⟨[id], .account he (by rw [hp]; exact .root)⟩
    | some p =>
      obtain ⟨pe, hpe⟩ := h.retained id e p he hp
      have hlt := hr id e p he hp
      obtain ⟨l, hl⟩ := ih (rank p) (by omega) hpe rfl
      exact ⟨id :: l, .account he (by rw [hp]; exact hl)⟩

theorem Chain.rank_lt {rank : Nat → Nat}
    (hr : ∀ id e p, t.get id = some e → e.parent = some p → rank p < rank id)
    (h : Chain t o l) {bound : Nat} (hb : ∀ p, o = some p → rank p < bound) :
    ∀ k ∈ l, rank k < bound := by
  induction h generalizing bound with
  | root => exact nofun
  | @account id e l he _ ih =>
    intro k hk
    have hid := hb id rfl
    rcases mem_cons.mp hk with rfl | hk
    · exact hid
    · exact ih (fun p hp => (hr id e p he hp).trans hid) k hk

theorem Chain.nodup (ht : Tree t) (h : Chain t o l) : l.Nodup := by
  obtain ⟨rank, hr⟩ := ht.ranked
  induction h with
  | root => exact nodup_nil
  | @account id e l he hc ih =>
    refine nodup_cons.mpr ⟨fun hm => ?_, ih⟩
    exact lt_irrefl _ (hc.rank_lt hr (fun p hp => hr id e p he hp) id hm)

theorem Chain.length_le (ht : Tree t) (h : Chain t o l) : l.length ≤ t.len := by
  have hs : l.toFinset ⊆ t.procs.keys := by
    intro k hk
    exact (Finmap.mem_keys_iff _ _).mpr (h.mem_get (mem_toFinset.mp hk))
  rw [← toFinset_card_of_nodup (h.nodup ht)]
  exact Finset.card_le_card hs

def accountsFrom (t : ProcessTable) : Nat → Option Nat → List Nat
  | 0, _ => []
  | _ + 1, none => []
  | fuel + 1, some id =>
    match t.get id with
    | none => []
    | some e => id :: accountsFrom t fuel e.parent

def accounts (t : ProcessTable) (id : Nat) : List Nat := t.accountsFrom t.len (some id)

theorem Chain.accountsFrom_eq (h : Chain t o l) {fuel : Nat} (hf : l.length ≤ fuel) :
    t.accountsFrom fuel o = l := by
  induction h generalizing fuel with
  | root => cases fuel <;> rfl
  | @account id e l he _ ih =>
    cases fuel with
    | zero => exact absurd hf (by simp)
    | succ fuel =>
      rw [accountsFrom, he]
      dsimp only
      rw [ih (Nat.le_of_succ_le_succ hf)]

theorem Chain.accounts_eq (ht : Tree t) (h : Chain t (some id) l) : t.accounts id = l :=
  h.accountsFrom_eq (h.length_le ht)

theorem Chain.mem_iff_under (h : Chain t (some id) l) (p : Nat) : p ∈ l ↔ Under t p id := by
  have hof : ∀ {o l}, Chain t o l → ∀ k, o = some k → p ∈ l → Under t p k := by
    intro o l hc
    induction hc with
    | root => exact nofun
    | @account id e l he hc ih =>
      rintro k hk hp
      obtain rfl : id = k := Option.some.inj hk
      rcases mem_cons.mp hp with rfl | hp
      · exact .self
      · cases hpa : e.parent with
        | none =>
          rw [hpa] at hc
          cases hc
          cases hp
        | some q => exact .child he hpa (ih q hpa hp)
  refine ⟨hof h id rfl, fun hu => ?_⟩
  induction hu generalizing l with
  | self =>
    cases h
    exact mem_cons_self
  | @child id q e he hp hu ih =>
    cases h with
    | @account _ e' l' he' hc =>
    cases he.symm.trans he'
    rw [hp] at hc
    exact mem_cons_of_mem _ (ih hc)

/-! ## Walks -/

theorem modify_congr {f f' : ProcessEntry → ProcessEntry}
    (h : ∀ e, t.get id = some e → f e = f' e) : t.modify id f = t.modify id f' := by
  unfold modify Finmap.modify
  cases he : t.procs.lookup id with
  | none => rfl
  | some e =>
    dsimp only
    rw [h e he]

def onBudget (g : BudgetState → BudgetState) (e : ProcessEntry) : ProcessEntry :=
  { e with scope := { e.scope with budget := g e.scope.budget } }

structure Adjusts (t t' : ProcessTable) (l : List Nat) (g : BudgetState → BudgetState) : Prop where
  get : ∀ k, t'.get k = if k ∈ l then (t.get k).map (onBudget g) else t.get k
  rest : t' = { t with procs := t'.procs }

variable {g g' : BudgetState → BudgetState}

theorem Adjusts.nil (t : ProcessTable) (g : BudgetState → BudgetState) : Adjusts t t [] g :=
  ⟨fun _ => (if_neg not_mem_nil).symm, rfl⟩

theorem Adjusts.modify (t : ProcessTable) (id : Nat) (g : BudgetState → BudgetState) :
    Adjusts t (t.modify id (onBudget g)) [id] g := by
  refine ⟨fun k => ?_, rfl⟩
  rw [get_modify]
  by_cases hk : k = id
  · rw [if_pos hk, if_pos (mem_singleton.mpr hk), hk]
  · rw [if_neg hk, if_neg (mt mem_singleton.mp hk)]

theorem Adjusts.cons (h : Adjusts t t' [id] g) (h' : Adjusts t' t'' l g) (hid : id ∉ l) :
    Adjusts t t'' (id :: l) g := by
  refine ⟨fun k => ?_, ?_⟩
  · rw [h'.get, h.get]
    by_cases hk : k = id
    · subst hk
      rw [if_neg hid, if_pos (mem_singleton_self k), if_pos mem_cons_self]
    · rw [if_neg (mt mem_singleton.mp hk)]
      simp only [mem_cons, hk, false_or]
  · rw [h'.rest, h.rest]

def Charges (t t' : ProcessTable) (l : List Nat) (g : BudgetState → BudgetState) : Prop :=
  ∀ k, (t'.get k).map core = (t.get k).map fun e => (if k ∈ l then onBudget g e else e).core

theorem Charges.nil (t : ProcessTable) (g : BudgetState → BudgetState) : Charges t t [] g := by
  intro k
  simp only [not_mem_nil, if_false]

theorem Charges.alike (h : Charges t t' l g) (ha : Alike t' t'') : Charges t t'' l g :=
  fun k => (ha.core k).trans (h k)

theorem Charges.cons (h : Charges t t' [id] g) (h' : Charges t' t'' l g) (hid : id ∉ l) :
    Charges t t'' (id :: l) g := by
  have hm : ∀ (p : Prop) [Decidable p] (o : Option ProcessEntry),
      (o.map fun e => (if p then onBudget g e else e).core) =
        (o.map core).map fun e => if p then onBudget g e else e := by
    intro p _ o
    rw [Option.map_map]
    split <;> rfl
  intro k
  by_cases hk : k = id
  · subst hk
    rw [h' k]
    simpa only [hid, if_false, mem_cons, not_mem_nil, or_false, true_or, if_true] using h k
  · have ho := h k
    simp only [mem_singleton, hk, if_false] at ho
    rw [h' k, hm, ho, ← hm]
    simp only [mem_cons, hk, false_or]

theorem Charges.get_some (h : Charges t t' l g) (he : t.get k = some e) :
    ∃ e', t'.get k = some e' ∧ e'.parent = e.parent ∧
      e'.scope.budget = if k ∈ l then g e.scope.budget else e.scope.budget := by
  have hk := h k
  rw [he] at hk
  obtain ⟨e', he', heq⟩ := Option.map_eq_some_iff.mp hk
  refine ⟨e', he', ?_⟩
  split at heq
  · next hin =>
    rw [if_pos hin]
    exact core_links heq
  · next hin =>
    rw [if_neg hin]
    exact core_links heq

theorem Charges.get_of_some (h : Charges t t' l g) {e' : ProcessEntry}
    (he' : t'.get k = some e') : ∃ e, t.get k = some e ∧
      e'.scope.budget = if k ∈ l then g e.scope.budget else e.scope.budget := by
  have hk := h k
  rw [he'] at hk
  obtain ⟨e, he, -⟩ := Option.map_eq_some_iff.mp hk.symm
  obtain ⟨e'', he'', -, hb⟩ := h.get_some he
  cases he'.symm.trans he''
  exact ⟨e, he, hb⟩

theorem Charges.chain (h : Charges t t' l g) {l' : List Nat} (hc : Chain t o l') :
    Chain t' o l' := by
  refine hc.congr fun k _ e he => ?_
  obtain ⟨e', he', hp, -⟩ := h.get_some he
  exact ⟨e', he', hp⟩

theorem Adjusts.charges (h : Adjusts t t' l g) : Charges t t' l g := by
  intro k
  rw [h.get]
  split
  · rw [Option.map_map]
    rfl
  · rfl

theorem Adjusts.undo (h : Adjusts t t' l g) (h' : Adjusts t' t'' l g')
    (hu : ∀ k ∈ l, ∀ e, t.get k = some e → g' (g e.scope.budget) = e.scope.budget) : t'' = t := by
  have hp : t''.procs = t.procs := by
    refine Finmap.ext_lookup fun k => ?_
    show t''.get k = t.get k
    rw [h'.get, h.get]
    by_cases hk : k ∈ l
    · rw [if_pos hk, if_pos hk]
      cases he : t.get k with
      | none => rfl
      | some e =>
        refine congrArg some ?_
        show { e with scope := { e.scope with budget := g' (g e.scope.budget) } } = e
        rw [hu k hk e he]
    · rw [if_neg hk, if_neg hk]
  rw [h'.rest, h.rest, hp]

section Reserve

variable (mode : ReserveMode) (microUsd tokens : Nat)

theorem reserveWalk_spec (hc : Chain t o l) (hn : l.Nodup) {remaining : Nat} (reserved : Nat)
    (hr : l.length ≤ remaining) : (∃ t', reserveWalk mode microUsd tokens remaining reserved o t =
        (.ok (), reserved + l.length, t') ∧
      Adjusts t t' l (debit microUsd tokens) ∧
      ∀ k ∈ l, ∀ e, t.get k = some e →
        (e.scope.budget.debit microUsd tokens).Within e.scope.limits) ∨
    ∃ error n t', reserveWalk mode microUsd tokens remaining reserved o t =
        (.error error, reserved + n, t') ∧
      Adjusts t t' (l.take n) (debit microUsd tokens) ∧
      ∀ k ∈ l.take n, ∀ e, t.get k = some e → (e.scope.budget.debit microUsd tokens).Fits := by
  induction l generalizing t o remaining reserved with
  | nil =>
    cases hc
    refine .inl ⟨t, ?_, .nil _ _, nofun⟩
    cases remaining <;> rfl
  | cons id l ih =>
    obtain ⟨remaining, rfl⟩ : ∃ n, remaining = n + 1 :=
      Nat.exists_eq_succ_of_ne_zero fun h => by rw [h] at hr; cases hr
    obtain ⟨hid, hn⟩ := nodup_cons.mp hn
    cases hc with
    | @account _ e _ he hc =>
    rw [reserveWalk, he]
    dsimp only
    cases hs : reserveScope e.scope mode reserved microUsd tokens with
    | error error => exact .inr ⟨error, 0, t, rfl, .nil t _, nofun⟩
    | ok scope =>
      obtain ⟨rfl, hw, hf⟩ := reserveScope_ok hs
      dsimp only
      have hst : (t.modify id fun e' => { e' with
          scope := { e.scope with budget := e.scope.budget.debit microUsd tokens } }) =
          t.modify id (onBudget (debit microUsd tokens)) :=
        modify_congr fun e' he' => by rw [Option.some.inj (he'.symm.trans he)]; rfl
      have hfs := Adjusts.modify t id (debit microUsd tokens)
      rw [hst]
      generalize t.modify id (onBudget (debit microUsd tokens)) = t₁ at hfs
      have ho : ∀ k ∈ l, t₁.get k = t.get k := by
        intro k hk
        rw [hfs.get, if_neg]
        intro hm
        rw [mem_singleton.mp hm] at hk
        exact hid hk
      rcases ih (hfs.charges.chain hc) hn (reserved + 1) (Nat.le_of_succ_le_succ hr) with
        ⟨t', heq, ha, hl⟩ | ⟨error, n, t', heq, ha, hfi⟩
      · refine .inl ⟨t', ?_, hfs.cons ha hid, fun k hk e' he' => ?_⟩
        · rw [heq, length_cons, Nat.add_assoc, Nat.add_comm 1]
        · rcases mem_cons.mp hk with rfl | hk
          · cases he.symm.trans he'
            exact hw
          · exact hl k hk e' (by rw [ho k hk]; exact he')
      · have hsu : ∀ k ∈ l.take n, k ∈ l := fun k hk => mem_of_mem_take hk
        refine .inr ⟨error, n + 1, t', ?_, ?_, ?_⟩
        · rw [heq, Nat.add_assoc, Nat.add_comm 1]
        · exact hfs.cons ha fun hm => hid (hsu id hm)
        · intro k hk e' he'
          rcases mem_cons.mp hk with rfl | hk
          · cases he.symm.trans he'
            exact hf
          · exact hfi k hk e' (by rw [ho k (hsu k hk)]; exact he')

theorem rollback_spec (hc : Chain t o l) (hn : l.Nodup) (n : Nat) :
    Adjusts t (rollback microUsd tokens n o t) (l.take n)
      fun b => b.settle microUsd 0 tokens 0 := by
  induction l generalizing t o n with
  | nil =>
    cases hc
    cases n <;> exact .nil t _
  | cons id l ih =>
    cases n with
    | zero => exact .nil t _
    | succ n =>
      obtain ⟨hid, hn⟩ := nodup_cons.mp hn
      cases hc with
      | @account _ e _ he hc =>
      rw [rollback, he]
      have hf := Adjusts.modify t id fun b => b.settle microUsd 0 tokens 0
      exact hf.cons (ih (hf.charges.chain hc) hn n) fun hm => hid (mem_of_mem_take hm)

theorem reserveBudget_spec (ht : Tree t) (id : Nat) :
    (∃ t', t.reserveBudget id microUsd tokens mode = (.ok (), t') ∧
      Chain t (some id) (t.accounts id) ∧
      Adjusts t t' (t.accounts id) (debit microUsd tokens) ∧
      ∀ k ∈ t.accounts id, ∀ e, t.get k = some e →
        (e.scope.budget.debit microUsd tokens).Within e.scope.limits) ∨
    ∃ error, t.reserveBudget id microUsd tokens mode = (.error error, t) := by
  unfold reserveBudget
  cases hid : t.get id with
  | none =>
    cases t.len with
    | zero => exact .inr ⟨_, rfl⟩
    | succ n =>
      rw [reserveWalk, hid]
      exact .inr ⟨_, rfl⟩
  | some e =>
    obtain ⟨l, hc⟩ := Chain.exists ht hid
    rw [hc.accounts_eq ht]
    have hn := hc.nodup ht
    rcases reserveWalk_spec mode microUsd tokens hc hn 0 (hc.length_le ht) with
      ⟨t', heq, ha, hl⟩ | ⟨error, n, t', heq, ha, hf⟩
    · rw [heq]
      exact .inl ⟨t', rfl, hc, ha, hl⟩
    · rw [heq, Nat.zero_add]
      refine .inr ⟨error, ?_⟩
      have hb := rollback_spec microUsd tokens (ha.charges.chain hc) hn n
      refine congrArg (Prod.mk _) (ha.undo hb fun k hk e he => ?_)
      exact settle_debit (hf k hk e he)

end Reserve

/-! ## Settlement -/

section Settle

variable (reservedMicroUsd actualMicroUsd reservedTokens actualTokens : Nat)

theorem settleWalk_spec (hc : Chain t o l) (hn : l.Nodup) {remaining : Nat}
    (hr : l.length ≤ remaining) :
    Charges t (settleWalk reservedMicroUsd actualMicroUsd reservedTokens actualTokens remaining o t)
      l fun b => b.settle reservedMicroUsd actualMicroUsd reservedTokens actualTokens := by
  induction l generalizing t o remaining with
  | nil =>
    cases hc
    cases remaining <;> exact .nil t _
  | cons id l ih =>
    obtain ⟨remaining, rfl⟩ : ∃ n, remaining = n + 1 :=
      Nat.exists_eq_succ_of_ne_zero fun h => by rw [h] at hr; cases hr
    obtain ⟨hid, hn⟩ := nodup_cons.mp hn
    cases hc with
    | @account _ e _ he hc =>
    rw [settleWalk, he]
    have hf := (Adjusts.modify t id fun b =>
      b.settle reservedMicroUsd actualMicroUsd reservedTokens actualTokens).charges.alike
        (alike_queue _ id)
    exact hf.cons (ih (hf.chain hc) hn (Nat.le_of_succ_le_succ hr)) hid

theorem settleBudget_spec (ht : Tree t) (id : Nat) :
    Charges t (t.settleBudget id reservedMicroUsd actualMicroUsd reservedTokens actualTokens)
      (t.accounts id)
      fun b => b.settle reservedMicroUsd actualMicroUsd reservedTokens actualTokens := by
  cases hid : t.get id with
  | none =>
    unfold settleBudget accounts
    cases t.len with
    | zero => exact .nil t _
    | succ n =>
      rw [settleWalk, accountsFrom, hid]
      exact .nil t _
  | some e =>
    obtain ⟨l, hl⟩ := Chain.exists ht hid
    rw [hl.accounts_eq ht]
    exact settleWalk_spec _ _ _ _ hl (hl.nodup ht) (hl.length_le ht)

theorem keeps_onBudget (g : BudgetState → BudgetState) (e : ProcessEntry) :
    Keeps e (onBudget g e) :=
  ⟨⟨rfl, rfl, rfl⟩, rfl, fun hs => ⟨hs.queued, hs.terminal, hs.released⟩⟩

theorem sound_settleWalk (h : Sound t none) (remaining : Nat) (o : Option Nat) :
    Sound (settleWalk reservedMicroUsd actualMicroUsd reservedTokens actualTokens remaining o t)
      none := by
  induction remaining generalizing t o with
  | zero => exact h
  | succ remaining ih =>
    cases o with
    | none => exact h
    | some account =>
      rw [settleWalk]
      cases t.get account with
      | none => exact h
      | some e =>
        have hk : ∀ e : ProcessEntry, Keeps e { e with
            scope := e.scope.settle reservedMicroUsd actualMicroUsd reservedTokens actualTokens } :=
          fun e => keeps_onBudget
            (fun b => b.settle reservedMicroUsd actualMicroUsd reservedTokens actualTokens) e
        exact ih (h.modify fun e _ => hk e).queue e.parent

theorem sound_settleBudget (h : Sound t none) (id : Nat) :
    Sound (t.settleBudget id reservedMicroUsd actualMicroUsd reservedTokens actualTokens) none :=
  sound_settleWalk _ _ _ _ h t.len (some id)

end Settle

theorem sound_reserveWalk (h : Sound t none) (mode : ReserveMode)
    (microUsd tokens remaining reserved : Nat) (o : Option Nat) :
    Sound (reserveWalk mode microUsd tokens remaining reserved o t).2.2 none := by
  induction remaining generalizing t o reserved with
  | zero => cases o <;> exact h
  | succ remaining ih =>
    cases o with
    | none => exact h
    | some account =>
      rw [reserveWalk]
      cases he : t.get account with
      | none => exact h
      | some e =>
        dsimp only
        cases hs : reserveScope e.scope mode reserved microUsd tokens with
        | error error => exact h
        | ok scope =>
          obtain ⟨rfl, -⟩ := reserveScope_ok hs
          -- a debited account has a call in flight, so it does not become eligible
          refine ih (h.modify_quiet (fun e' he' => ?_) fun e' he' hr => ?_) _ _
          · rw [Option.some.inj (he'.symm.trans he)]
            exact keeps_onBudget (debit microUsd tokens) e
          · simp [reapable, debit] at hr

theorem sound_reserveBudget (h : Sound t none) (id microUsd tokens : Nat) (mode : ReserveMode) :
    Sound (t.reserveBudget id microUsd tokens mode).2 none := by
  rcases reserveBudget_spec mode microUsd tokens h.toTree id with ⟨t', heq, -⟩ | ⟨error, heq⟩
  · have hwa := sound_reserveWalk h mode microUsd tokens t.len 0 (some id)
    unfold reserveBudget at heq ⊢
    split at heq
    · next hw =>
      rw [hw] at hwa
      exact hwa
    · cases heq
  · rw [heq]
    exact h

end ProcessTable
end Xolotl.Kernel
