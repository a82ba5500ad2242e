import Xolotl.Kernel.ProcessRun
import Xolotl.Lib.Ledger

/-! Conservation of budgets over the process tree. A journal records every successful
reservation with the accounts above its caller, and what became of it; each account is
the total of the calls charged to it since its process was admitted. -/

namespace Xolotl.Kernel

open Word List Function

structure BudgetCall where
  process : Nat
  accounts : List Nat
  microUsd : Nat
  tokens : Nat
  settled : Option (Nat × Nat) := none
  deriving DecidableEq, Repr

namespace BudgetCall

variable (account : Nat) (c : BudgetCall)

/-- What a call weighs in an account: its reservation while it is outstanding, and its
actual cost once it is settled. -/
def microUsdIn : Nat :=
  if account ∈ c.accounts then (c.settled.map Prod.fst).getD c.microUsd else 0

def tokensIn : Nat :=
  if account ∈ c.accounts then (c.settled.map Prod.snd).getD c.tokens else 0

def inflightIn : Nat :=
  if account ∈ c.accounts then (if c.settled.isNone then 1 else 0) else 0

end BudgetCall

/-- The calls of a history, and how many there were when a process was admitted. -/
structure BudgetJournal where
  calls : List BudgetCall := []
  since : Nat → Nat := fun _ => 0

def BudgetJournal.usage (j : BudgetJournal) (account : Nat) : BudgetState where
  spentMicroUsd := Ledger.total (BudgetCall.microUsdIn account) (j.since account) j.calls
  inflightOps := Ledger.total (BudgetCall.inflightIn account) (j.since account) j.calls
  inferenceTokens := Ledger.total (BudgetCall.tokensIn account) (j.since account) j.calls

/-! ## Histories with their journal -/

inductive BudgetEvent
  | lifecycle (op : Lifecycle)
  | admission (a : Admission)
  | reserve (process microUsd tokens : Nat) (mode : ProcessTable.ReserveMode)
  | settle (call actualMicroUsd actualTokens : Nat)
  deriving DecidableEq, Repr

structure Accounted where
  table : ProcessTable
  journal : BudgetJournal := {}

namespace Accounted

open ProcessTable ProcessEntry BudgetCall BudgetJournal

def perform (w : Accounted) (op : Lifecycle) : Accounted :=
  { w with table := w.table.perform op }

variable (w : Accounted)

def admitProcess (a : Admission) : Accounted :=
  match w.table.admitEntry a.entry with
  | (.error _, table) => { w with table }
  | (.ok (), table) =>
    ⟨table, w.journal.calls, Function.update w.journal.since a.id w.journal.calls.length⟩

def reserve (process microUsd tokens : Nat) (mode : ReserveMode) : Accounted :=
  match w.table.reserveBudget process microUsd tokens mode with
  | (.error _, table) => { w with table }
  | (.ok (), table) =>
    let call := { process, accounts := w.table.accounts process, microUsd, tokens }
    ⟨table, w.journal.calls ++ [call], w.journal.since⟩

def settle (i actualMicroUsd actualTokens : Nat) : Accounted :=
  match w.journal.calls[i]? with
  | none => w
  | some c =>
    if c.settled.isSome then w
    else
      ⟨w.table.settleBudget c.process c.microUsd actualMicroUsd c.tokens actualTokens,
        w.journal.calls.set i { c with settled := some (actualMicroUsd, actualTokens) },
        w.journal.since⟩

def step : BudgetEvent → Accounted
  | .lifecycle op => w.perform op
  | .admission a => w.admitProcess a
  | .reserve process microUsd tokens mode => w.reserve process microUsd tokens mode
  | .settle call actualMicroUsd actualTokens => w.settle call actualMicroUsd actualTokens

def run (capacity : Option Nat) (events : List BudgetEvent) : Accounted :=
  events.foldl step { table := published capacity }

def Fits (w : Accounted) : Prop :=
  ∀ p e, w.table.get p = some e → (w.journal.usage p).Fits

/-- The table agrees with its journal, and the accounts of outstanding calls are
retained. -/
structure Balanced (w : Accounted) : Prop where
  sound : Sound w.table none
  since_le : ∀ p, w.journal.since p ≤ w.journal.calls.length
  account : ∀ p e, w.table.get p = some e → e.scope.budget = w.journal.usage p
  outstanding : ∀ i c, w.journal.calls[i]? = some c → c.settled = none →
    Chain w.table (some c.process) c.accounts ∧ ∀ p ∈ c.accounts, w.journal.since p ≤ i

variable {w : Accounted}

section

variable (h : Balanced w)
include h

theorem Balanced.inflight_pos {i p : Nat} {c : BudgetCall} {e : ProcessEntry}
    (hc : w.journal.calls[i]? = some c) (ho : c.settled = none) (hp : p ∈ c.accounts)
    (he : w.table.get p = some e) : e.scope.budget.inflightOps ≠ 0 := by
  have hle := Ledger.le_total (inflightIn p) hc ((h.outstanding i c hc ho).2 p hp)
  have hon : inflightIn p c = 1 := by
    rw [inflightIn, if_pos hp, ho]
    rfl
  have heq : e.scope.budget.inflightOps =
      Ledger.total (inflightIn p) (w.journal.since p) w.journal.calls :=
    congrArg BudgetState.inflightOps (h.account p e he)
  omega

theorem Balanced.perform (op : Lifecycle) : Balanced (w.perform op) := by
  have hg := good_perform h.sound op
  refine ⟨hg.sound, h.since_le, fun p e' he' => ?_, fun i c hc ho => ?_⟩
  · obtain ⟨e, he⟩ := hg.evolves.old p e' he'
    rcases hg.evolves.kept p e he with ⟨e'', he'', -, hb⟩ | ⟨hn, -⟩
    · cases he'.symm.trans he''
      exact hb.trans (h.account p e he)
    · cases he'.symm.trans hn
  · obtain ⟨hch, hs⟩ := h.outstanding i c hc ho
    refine ⟨hch.congr fun k hk e he => ?_, hs⟩
    rcases hg.evolves.kept k e he with ⟨e', he', hp, -⟩ | ⟨-, hzero, -⟩
    · exact ⟨e', he', hp⟩
    · exact absurd hzero (h.inflight_pos hc ho hk he)

theorem Balanced.admitProcess (a : Admission) : Balanced (w.admitProcess a) := by
  obtain ⟨hpr, hpa, -, -, hb⟩ := admission_entry a
  have hs := sound_admitEntry h.sound a
  unfold Accounted.admitProcess
  rcases w.table.admit_cases a with ⟨e, heq⟩ | ⟨heq, hid, -⟩
  · rw [heq]
    exact h
  rw [heq] at hs ⊢
  have hg := get_linkEntry w.table hpa
  rw [hpr] at hg
  have hot : ∀ k e, w.table.get k = some e → k ≠ a.id := by
    rintro k e hk rfl
    rw [hid] at hk
    cases hk
  refine ⟨hs, fun p => ?_, fun p e he => ?_, fun i c hc ho => ?_⟩
  · show Function.update w.journal.since a.id w.journal.calls.length p ≤ _
    by_cases hp : p = a.id
    · rw [hp, update_self]
    · rw [update_of_ne hp]
      exact h.since_le p
  · have he' : (w.table.linkEntry a.entry).get p = some e := he
    rw [hg] at he'
    by_cases hp : p = a.id
    · rw [if_pos hp] at he'
      cases he'
      have hzero : ∀ weight, Ledger.total weight (Function.update w.journal.since a.id
          w.journal.calls.length p) w.journal.calls = 0 := by
        intro weight
        rw [hp, update_self]
        exact Ledger.total_opened weight _
      refine hb.trans ?_
      simp only [usage, hzero]
    · rw [if_neg hp] at he'
      refine (h.account p e he').trans ?_
      simp only [usage, update_of_ne hp]
  · obtain ⟨hch, hsi⟩ := h.outstanding i c hc ho
    refine ⟨hch.congr fun k _ e he => ⟨e, ?_, rfl⟩, fun p hp => ?_⟩
    · exact (hg k).trans ((if_neg (hot k e he)).trans he)
    · obtain ⟨e, he⟩ := hch.mem_get hp
      show Function.update w.journal.since a.id _ p ≤ i
      rw [update_of_ne (hot p e he)]
      exact hsi p hp

theorem Balanced.reserve (process microUsd tokens : Nat) (mode : ReserveMode) :
    Balanced (w.reserve process microUsd tokens mode) := by
  have hs := sound_reserveBudget h.sound process microUsd tokens mode
  unfold Accounted.reserve
  rcases reserveBudget_spec mode microUsd tokens h.sound.toTree process with
    ⟨t', heq, hl, ha, -⟩ | ⟨error, heq⟩
  · rw [heq] at hs ⊢
    refine ⟨hs, fun p => ?_, fun p e' he' => ?_, fun i c hc ho => ?_⟩
    · refine (h.since_le p).trans ?_
      rw [length_append]
      exact Nat.le_add_right _ _
    · obtain ⟨e, he, hb⟩ := ha.charges.get_of_some he'
      rw [hb, h.account p e he]
      simp only [usage, Ledger.total_append (h.since_le p), microUsdIn, tokensIn, inflightIn]
      split
      · rfl
      · rfl
    · rw [List.getElem?_append] at hc
      split at hc
      · obtain ⟨hch, hsi⟩ := h.outstanding i c hc ho
        exact ⟨ha.charges.chain hch, hsi⟩
      · next hi =>
        have hlast : i - w.journal.calls.length = 0 := by
          by_contra hne
          rw [List.getElem?_eq_none] at hc
          · cases hc
          · rw [length_singleton]
            omega
        rw [hlast] at hc
        cases hc
        exact ⟨ha.charges.chain hl, fun p _ => (h.since_le p).trans (not_lt.mp hi)⟩
  · rw [heq]
    exact h

section Amend

variable {i p actualMicroUsd actualTokens : Nat} {c : BudgetCall} {j : BudgetJournal}

omit h in
theorem settle_usage (hc : j.calls[i]? = some c) (ho : c.settled = none) (hp : p ∈ c.accounts)
    (hs : j.since p ≤ i)
    (hf : (usage ⟨j.calls.set i { c with
      settled := some (actualMicroUsd, actualTokens) }, j.since⟩ p).Fits) :
    (j.usage p).settle c.microUsd actualMicroUsd c.tokens actualTokens =
      usage ⟨j.calls.set i { c with
        settled := some (actualMicroUsd, actualTokens) }, j.since⟩ p := by
  obtain ⟨hu, ht⟩ := hf
  have h₁ := Ledger.total_set (microUsdIn p)
    { c with settled := some (actualMicroUsd, actualTokens) } hc hs
  have h₂ := Ledger.total_set (tokensIn p)
    { c with settled := some (actualMicroUsd, actualTokens) } hc hs
  have h₃ := Ledger.total_set (inflightIn p)
    { c with settled := some (actualMicroUsd, actualTokens) } hc hs
  simp only [microUsdIn, tokensIn, inflightIn, if_pos hp, ho,
    Option.map_none, Option.getD_none, Option.map_some, Option.getD_some] at h₁ h₂ h₃
  unfold usage at ⊢
  unfold BudgetState.settle
  have hw : ∀ total total' reserved actual : Nat, total' + reserved = total + actual →
      reserved ≤ total → total' ≤ u64Max → min (total - reserved + actual) u64Max = total' := by
    intro total total' reserved actual hsu hle hm
    omega
  have hle₁ := Ledger.le_total (microUsdIn p) hc hs
  have hle₂ := Ledger.le_total (tokensIn p) hc hs
  rw [microUsdIn, if_pos hp, ho] at hle₁
  rw [tokensIn, if_pos hp, ho] at hle₂
  have hcn := (Nat.sub_eq_of_eq_add h₃.symm :)
  rw [hw _ _ _ _ h₁ hle₁ hu, hw _ _ _ _ h₂ hle₂ ht]
  exact congrArg (BudgetState.mk _ · _) hcn

omit h in
theorem usage_of_not_mem (hc : j.calls[i]? = some c) (hp : p ∉ c.accounts) :
    usage ⟨j.calls.set i { c with
      settled := some (actualMicroUsd, actualTokens) }, j.since⟩ p = j.usage p := by
  have hzero : ∀ weight : BudgetCall → Nat, weight c = 0 →
      weight { c with settled := some (actualMicroUsd, actualTokens) } = 0 →
      Ledger.total weight (j.since p) (j.calls.set i { c with
        settled := some (actualMicroUsd, actualTokens) }) =
        Ledger.total weight (j.since p) j.calls :=
    fun weight ha hb => Ledger.total_set_of_zero hc ha hb
  unfold usage
  rw [hzero _ (if_neg hp) (if_neg hp), hzero _ (if_neg hp) (if_neg hp),
    hzero _ (if_neg hp) (if_neg hp)]

end Amend

theorem Balanced.settle (i actualMicroUsd actualTokens : Nat)
    (hf : (w.settle i actualMicroUsd actualTokens).Fits) :
    Balanced (w.settle i actualMicroUsd actualTokens) := by
  unfold Accounted.settle at hf ⊢
  cases hc : w.journal.calls[i]? with
  | none => exact h
  | some c =>
    rw [hc] at hf
    dsimp only at hf ⊢
    cases ho : c.settled with
    | some actual => exact h
    | none =>
      rw [ho] at hf
      simp only [Option.isSome_none, Bool.false_eq_true, if_false] at ⊢
      obtain ⟨hch, hsi⟩ := h.outstanding i c hc ho
      have hs := settleBudget_spec c.microUsd actualMicroUsd c.tokens actualTokens
        h.sound.toTree c.process
      rw [hch.accounts_eq h.sound.toTree] at hs
      have hso := sound_settleBudget c.microUsd actualMicroUsd c.tokens actualTokens h.sound
        c.process
      refine ⟨hso, fun p => ?_, fun p e' he' => ?_, fun k c' hc' ho' => ?_⟩
      · rw [length_set]
        exact h.since_le p
      · obtain ⟨e, he, hb⟩ := hs.get_of_some he'
        rw [hb, h.account p e he]
        split
        · next hin => exact settle_usage hc ho hin (hsi p hin) (hf p e' he')
        · next hin => exact (usage_of_not_mem hc hin).symm
      · by_cases hk : k = i
        · rw [hk, List.getElem?_set_self (List.getElem?_eq_some_iff.mp hc).1] at hc'
          cases hc'
          cases ho'
        · rw [List.getElem?_set_ne (Ne.symm hk)] at hc'
          obtain ⟨hch', hsi'⟩ := h.outstanding k c' hc' ho'
          exact ⟨hs.chain hch', hsi'⟩

/-! ## Conservation -/

omit h in
theorem balanced_published (capacity : Option Nat) : Balanced { table := published capacity } := by
  refine ⟨sound_published capacity, fun p => Nat.le_refl _, fun p e he => ?_, nofun⟩
  have hg := get_published capacity p
  rw [show (published capacity).get p = some e from he] at hg
  split at hg
  · cases hg
    rfl
  · cases hg

theorem Balanced.step (event : BudgetEvent) (hf : (w.step event).Fits) :
    Balanced (w.step event) := by
  cases event with
  | lifecycle op => exact h.perform op
  | admission a => exact h.admitProcess a
  | reserve process microUsd tokens mode => exact h.reserve process microUsd tokens mode
  | settle call actualMicroUsd actualTokens => exact h.settle call _ _ hf

end

theorem balanced_run (capacity : Option Nat) (events : List BudgetEvent)
    (hf : ∀ past, past <+: events → (run capacity past).Fits) :
    Balanced (run capacity events) := by
  induction events using List.reverseRecOn with
  | nil => exact balanced_published capacity
  | append_singleton events event ih =>
    have hlast : run capacity (events ++ [event]) = (run capacity events).step event := by
      rw [run, foldl_append]
      rfl
    have hb := ih fun past hp => hf past (hp.trans (prefix_append _ _))
    rw [hlast]
    refine hb.step event ?_
    rw [← hlast]
    exact hf _ (prefix_refl _)

/-- In every history whose sums stay within their words, each account is the total of
the calls charged to it: those of its process and of the descendants of its process. A
successful reservation debits these accounts within their limits, a failed one changes
nothing, and the settlement of an outstanding call reaches the accounts it was charged
to. -/
theorem budget_conserved (capacity : Option Nat) (events : List BudgetEvent)
    (hfits : ∀ past, past <+: events → (run capacity past).Fits) :
    let w := run capacity events
    (∀ p e, w.table.get p = some e → e.scope.budget = w.journal.usage p) ∧
    (∀ process e p, w.table.get process = some e →
      (p ∈ w.table.accounts process ↔ Under w.table p process)) ∧
    (∀ process microUsd tokens mode t',
      w.table.reserveBudget process microUsd tokens mode = (.ok (), t') → ∀ p,
        if p ∈ w.table.accounts process then
          ∃ e e', w.table.get p = some e ∧ t'.get p = some e' ∧
            e'.scope.budget = e.scope.budget.debit microUsd tokens ∧
            e'.scope.limits = e.scope.limits ∧ e'.scope.budget.Within e'.scope.limits
        else t'.get p = w.table.get p) ∧
    (∀ process microUsd tokens mode error t',
      w.table.reserveBudget process microUsd tokens mode = (.error error, t') → t' = w.table) ∧
    ∀ (i : Nat) (c : BudgetCall), w.journal.calls[i]? = some c → c.settled = none →
      ∀ actualMicroUsd actualTokens p,
      if p ∈ c.accounts then
        ∃ e e', w.table.get p = some e ∧
          (w.table.settleBudget c.process c.microUsd actualMicroUsd c.tokens actualTokens).get p =
            some e' ∧
          e'.scope.budget = e.scope.budget.settle c.microUsd actualMicroUsd c.tokens actualTokens
      else
        ((w.table.settleBudget c.process c.microUsd actualMicroUsd c.tokens actualTokens).get
          p).map core = (w.table.get p).map core := by
  intro w
  have h : Balanced w := balanced_run capacity events hfits
  refine ⟨h.account, fun process e p he => ?_, fun process microUsd tokens mode t' heq p => ?_,
    fun process microUsd tokens mode error t' heq => ?_,
    fun i c hc ho actualMicroUsd actualTokens p => ?_⟩
  · obtain ⟨l, hl⟩ := Chain.exists h.sound.toTree he
    rw [hl.accounts_eq h.sound.toTree]
    exact hl.mem_iff_under p
  · rcases reserveBudget_spec mode microUsd tokens h.sound.toTree process with
      ⟨t'', heq', hl, hadj, hlim⟩ | ⟨error, heq'⟩
    · cases heq.symm.trans heq'
      have hget := hadj.get p
      by_cases hp : p ∈ w.table.accounts process
      · obtain ⟨e, he⟩ := hl.mem_get hp
        rw [if_pos hp, he] at hget
        rw [if_pos hp]
        exact ⟨e, _, he, hget, rfl, rfl, hlim p hp e he⟩
      · rw [if_neg hp] at hget ⊢
        exact hget
    · cases heq.symm.trans heq'
  · rcases reserveBudget_spec mode microUsd tokens h.sound.toTree process with
      ⟨t'', heq', -⟩ | ⟨error', heq'⟩
    · cases heq.symm.trans heq'
    · cases heq.symm.trans heq'
      rfl
  · obtain ⟨hchain, -⟩ := h.outstanding i c hc ho
    have hspec := settleBudget_spec c.microUsd actualMicroUsd c.tokens actualTokens
      h.sound.toTree c.process
    rw [hchain.accounts_eq h.sound.toTree] at hspec
    by_cases hp : p ∈ c.accounts
    · rw [if_pos hp]
      obtain ⟨e, he⟩ := hchain.mem_get hp
      obtain ⟨e', he', -, hb⟩ := hspec.get_some he
      rw [if_pos hp] at hb
      exact ⟨e, e', he, he', hb⟩
    · rw [hspec p]
      simp only [if_neg hp]

theorem fits_of_sum {w : Accounted}
    (hu : (w.journal.calls.map fun c => (c.settled.map Prod.fst).getD c.microUsd).sum ≤ u64Max)
    (ht : (w.journal.calls.map fun c => (c.settled.map Prod.snd).getD c.tokens).sum ≤ u64Max) :
    w.Fits := by
  intro p e _
  refine ⟨le_trans (Ledger.total_le (fun c => ?_) _ _) hu,
    le_trans (Ledger.total_le (fun c => ?_) _ _) ht⟩
  · rw [microUsdIn]
    split
    · exact Nat.le_refl _
    · exact Nat.zero_le _
  · rw [tokensIn]
    split
    · exact Nat.le_refl _
    · exact Nat.zero_le _

def twoCalls : List BudgetEvent :=
  [.admission { id := 2, parent := 1 }, .admission { id := 3, parent := 2 }, .reserve 3 10 5 {},
    .reserve 3 4 1 {}, .settle 0 7 2]

theorem budget_conserved_twoCalls : (∀ past, past <+: twoCalls → (run none past).Fits) ∧
      ∃ e, (run none twoCalls).table.get 1 = some e ∧ e.scope.budget = ⟨11, 1, 3⟩ := by
  have hfits : ∀ past, past <+: twoCalls → (run none past).Fits := by
    intro past hpast
    have hsums : ∀ past ∈ twoCalls.inits,
        ((run none past).journal.calls.map fun c =>
          (c.settled.map Prod.fst).getD c.microUsd).sum ≤ u64Max ∧
        ((run none past).journal.calls.map fun c =>
          (c.settled.map Prod.snd).getD c.tokens).sum ≤ u64Max := by
      decide +kernel
    obtain ⟨husd, htokens⟩ := hsums past ((mem_inits _ _).mpr hpast)
    exact fits_of_sum husd htokens
  have husage : (run none twoCalls).journal.usage 1 = ⟨11, 1, 3⟩ := by decide +kernel
  obtain ⟨e, he⟩ : ∃ e, (run none twoCalls).table.get 1 = some e :=
    Option.isSome_iff_exists.mp (by decide +kernel)
  exact ⟨hfits, e, he, ((budget_conserved none twoCalls hfits).1 1 e he).trans husage⟩

end Accounted
end Xolotl.Kernel
