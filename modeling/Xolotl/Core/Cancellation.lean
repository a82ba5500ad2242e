import Xolotl.Core.Counter

/-! Structured cancellation cannot be escaped: a task that is flagged outside any
cleanup asks for nothing but cleanups, catches nothing and ends with an error. -/

namespace Xolotl.Core

variable {S V E : Type}

def Values.KeepsErrors (values : Values S V E) : Prop :=
  ∀ e control s, ∃ e', (values.influenceResult (.error e) control s).1 = .error e'

namespace Values.KeepsErrors

variable {values : Values S V E}

theorem coloredResult (h : values.KeepsErrors) (e : E) (input : Option V) (s : S) :
    ∃ e', (values.coloredResult (.error e) input s).1 = .error e' := by
  cases input with
  | none => exact ⟨e, rfl⟩
  | some control => exact h e control s

theorem faulted (h : values.KeepsErrors) (fault : Fault) (t : Task V E) (s : S) :
    ∃ e, (values.faulted fault t s).1 = .error e := by
  unfold Values.faulted
  simp only [bind, StateT.bind]
  rcases values.error fault s with ⟨error, s₁⟩
  dsimp only
  obtain ⟨e, he⟩ := h.coloredResult error t.input s₁
  generalize values.coloredResult (.error error) t.input s₁ = r at he
  obtain ⟨result, s₂⟩ := r
  obtain rfl : result = .error e := he
  cases t.state with
  | returning o | done o => exact h e _ _
  | _ => exact ⟨e, rfl⟩

theorem landed (h : values.KeepsErrors) {e : E} {input : Option V} {s : S} {o : Except E V}
    {control : V} (hl : (values.landed (.error e) input s).1 = (o, control)) :
    ∃ e', o = .error e' := by
  obtain ⟨e', he⟩ := h.coloredResult e input s
  exact ⟨e', (congrArg Prod.fst hl).symm.trans he⟩

end Values.KeepsErrors

namespace Execution

variable {values : Values S V E} {x x' : Execution V E} {k : Nat}

theorem Moves.closes {image : ProgramImage V E} {t : Machine.Turn V E} {o : Except E V}
    (hf : Forest x) (h : Moves image values x k t x')
    (ho : (x'.task k).state.terminalResult = some o) :
    ∃ outcome control s, (x.task k).state = .returning outcome ∧ x.stack k = [] ∧
      (values.landed outcome (x.task k).input s).1 = (o, control) ∧
      (x'.task k).cancelled = (x.task k).cancelled ∧
      (x'.task k).cleaning = (x.task k).cleaning := by
  cases h.course with
  | closed s hst hs hl hx =>
    rw [hx.task_self (lt_length_of_not_free (by rw [hst]; rfl))] at ho ⊢
    obtain rfl := Option.some.inj ho
    exact ⟨_, _, s, hst, hs, hl, rfl, rfl⟩
  | goes hi hx ht hd =>
    rw [hx.task_self (lt_length_of_not_free (State.not_free_of_isRunning hi))] at ho
    exact (State.terminalResult_of_isRunning ht.running ho).elim
  | forks hst hn hk hj hx₁ hx =>
    rw [hx.self] at ho
    cases ho
  | sweeps hst =>
    rw [hf.task_sweep_self (by rw [hst]; rfl), hst] at ho
    cases ho
  | settles hst ha hb hx ht =>
    rw [hx.self] at ho
    exact (State.terminalResult_of_isRunning ht.running ho).elim

end Execution

open Execution

/-! ## Marks -/

section
variable (values : Values S V E)

/-- Task `k` was flagged outside any cleanup, in its present life and before it
had its result. -/
def struck : List (Record S V E) → Nat → Bool
  | [], _ => false
  | r :: history, k =>
    let t := r.before.exec.task k
    let t' := (r.after values).exec.task k
    !t.state.isFree && !t'.state.isFree &&
      (struck history k || t.state.terminalResult.isNone && t'.cancelled && t'.cleaning == 0)

def doomed : List (Record S V E) → Nat → Bool
  | [], _ => false
  | r :: history, k =>
    let t := r.before.exec.task k
    let t' := (r.after values).exec.task k
    struck values (r :: history) k || !t'.state.isFree &&
      if t.state.isFree then t'.parent.any (doomed history) else doomed history k

end

def Execution.Recovers (x x' : Execution V E) (k recover : Nat) : Prop :=
  (∃ rest, x.stack k = .catch_ recover :: rest ∧ x'.stack k = rest) ∧
    (x'.task k).state = .ready ∧ (x'.task k).pc = recover

variable {values : Values S V E} {x₀ x : Execution V E} {history : List (Record S V E)} {k : Nat}

theorem Run.struck (h : Run values x₀ history x) (h₀ : x₀.Forest) (hcn : x₀.Counts)
    (hk : Core.struck values history k = true) :
    (x.task k).state.isFree = false ∧ (x.task k).cancelled = true ∧ x.base k = 0 := by
  induction h with
  | nil => cases hk
  | cons r hr he hok ih =>
    subst he
    have hf := hr.forest h₀
    have ha := r.acts values hf
    have hli := Lineage.acts hf ha
    simp only [Core.struck, Bool.and_eq_true, Bool.or_eq_true, Bool.not_eq_true', beq_iff_eq] at hk
    obtain ⟨⟨hl, hl'⟩, hk | ⟨⟨hd, hfl⟩, hz⟩⟩ := hk
    · obtain ⟨-, hfl, hb⟩ := ih hk
      exact ⟨hl', hli.flag k hl hl' hfl, (hli.base k hl hl').trans hb⟩
    · have hc := (hr.counts h₀ hcn).acts hf ha k
      refine ⟨hl', hfl, ?_⟩
      omega

theorem Run.doomed (h : Run values x₀ history x) (h₀ : x₀.Forest) (hc : x₀.Counts)
    (hk : Core.doomed values history k = true) :
    (x.task k).state.isFree = false ∧ ((x.task k).cancelled = true ∨ 0 < x.base k) := by
  induction h generalizing k with
  | nil => cases hk
  | cons r hr he hok ih =>
    subst he
    have hf := hr.forest h₀
    have ha := r.acts values hf
    have hli := Lineage.acts hf ha
    rw [Core.doomed, Bool.or_eq_true, Bool.and_eq_true, Bool.not_eq_true'] at hk
    rcases hk with hk | ⟨hl', hk⟩
    · obtain ⟨hl, hfl, -⟩ := (Run.cons r hr rfl hok).struck h₀ hc hk
      exact ⟨hl, Or.inl hfl⟩
    refine ⟨hl', ?_⟩
    split at hk
    · next hfr =>
      cases hp : ((r.after values).exec.task k).parent with
      | none =>
        rw [hp] at hk
        cases hk
      | some p =>
        rw [hp] at hk
        exact Or.inr (hli.base_born (hr.counts h₀ hc) (hf.acts ha) hfr hp (ih hk).2)
    · next hl =>
      rw [Bool.not_eq_true] at hl
      refine (ih hk).2.imp (hli.flag k hl hl') fun hb => ?_
      rw [hli.base k hl hl']
      exact hb

/-! ## What a struck task can do -/

namespace Execution

variable {x' : Execution V E} {a : Action V E}

theorem Acts.request {r : Request V} (h : Acts values x a (.turn (.request r)) x') :
    r.cleanup = decide (0 < (x.task r.task).cleaning) ∧
      ((x'.task r.task).cancelled = false ∨ 0 < (x.task r.task).cleaning) ∧
      (x'.task r.task).cleaning = (x.task r.task).cleaning := by
  cases h with
  | turn h =>
    cases h with
    | moved hr hse hz hm =>
      cases hm with
      | requested hst hv hn hd hx =>
        have hw := picked_ready hse hz hst
        have hs := hx.task_self (lt_length_of_not_free (by rw [hst]; rfl))
        cases hd with
        | request hk ht hi hco hp hc =>
          subst ht
          rw [hs, hc]
          have hcl := picked_cleaning hse hz r.task
          rw [hcl] at hw ⊢
          exact ⟨rfl, hw, rfl⟩

theorem Acts.recovers {r : Report V E} {recover : Nat} (hf : Forest x) (h : Acts values x a r x')
    (hr : Recovers x x' k recover) : (x'.task k).cancelled = false ∨ 0 < (x.task k).cleaning := by
  obtain ⟨⟨rest, hs, hs'⟩, hre, -⟩ := hr
  have hle : (x'.stack k).length < (x.stack k).length := by
    rw [hs, hs']
    exact Nat.lt_succ_self _
  have hli : (x.task k).state.isFree = false := by
    by_contra hfr
    rw [Bool.not_eq_false] at hfr
    rw [(hf.fresh k hfr).2] at hs
    cases hs
  cases h.fate hf hli with
  | kept c ht hc hsa => rw [hsa] at hle; exact absurd hle (lt_irrefl _)
  | gone hp hk hst ht => rw [ht] at hre; cases hre
  | halted hk ht => subst hk; rw [ht] at hre; cases hre
  | interrupted s hst hz ht => rw [ht] at hre; cases hre
  | answered hst h =>
    cases h with
    | stale => exact absurd hle (lt_irrefl _)
    | delivered hrt hst hd hro hx =>
      rw [hx.stack_self, List.length_append] at hle
      omega
    | refused hrt hst hne he hx =>
      rw [hx.stack_self] at hle
      exact absurd hle (lt_irrefl _)
  | @moved image y z _ t hse hz hm =>
    have hsk : z.stack k = .catch_ recover :: rest := (picked_stack hse hz k).trans hs
    have hcn := picked_cleaning hse hz k
    have hzf := (hf.quota.selects hse).charges hz
    rw [← picked_stack hse hz] at hle
    rw [← hcn]
    -- Only a frame of a returning task can go, and only a recovery makes it ready.
    have hg : ∀ {u frames}, Puts z x' k u (frames ++ z.stack k) → False := by
      intro u frames hx
      rw [hx.stack_self, List.length_append] at hle
      omega
    have hsa : x'.stack k = z.stack k → False := fun h => by
      rw [h] at hle
      exact lt_irrefl _ hle
    cases hm with
    | closed s hst hnil => rw [hsk] at hnil; cases hnil
    | resumed s hst hs'' hl hr hx =>
      rw [hsk] at hs''
      cases hs''
      rw [hx.task_self (lt_length_of_not_free (by rw [hst]; rfl))] at hre ⊢
      cases hr with
      | catch_ ho hc => exact hc
      | passed => cases hre
    | stuck s s' hst hs'' hl hne hcl he hx =>
      rw [hx.task_self (lt_length_of_not_free (by rw [hst]; rfl))] at hre
      cases hre
    | dispatched hst hv hn hd hro hx => exact (hg hx).elim
    | requested hst hv hn hd hx | refused s hst hp hro he hne hx => exact (hg hx).elim
    | starved s hst hn hk hfr hx => exact (hsa (hx.stack_eq k)).elim
    | forked hst hv hn hk hj hx₁ hx => rw [hx.self] at hre; cases hre
    | swept hst hdo => exact (hsa (by rw [stack, frames_sweep]; rfl)).elim
    | joined s s' hst ha hb hn hx => exact (hsa (hzf.stack_joins ha hb hx k)).elim
    | broken s hst ha hb hn hx => exact (hsa (hzf.stack_joins ha hb hx k)).elim

theorem Acts.result {r : Report V E} {o : Except E V} (hla : values.KeepsErrors) (hf : Forest x)
    (h : Acts values x a r x') (hk : (x.task k).state.isFree = false)
    (hn : (x.task k).state.terminalResult = none)
    (ho : (x'.task k).state.terminalResult = some o) (hfl : (x'.task k).cancelled = true)
    (hz : x.stack k = [] → (x.task k).cleaning = 0) : ∃ e, o = .error e := by
  cases h.fate hf hk with
  | kept c ht => rw [ht, hn] at ho; cases ho
  | gone hp hkj hst ht | interrupted s hst hz ht => rw [ht] at ho; cases ho
  | halted hk0 ht hs hr hre =>
    obtain ⟨e, control, s, hre⟩ := hre
    subst hk0
    rw [ht] at ho
    obtain rfl := Option.some.inj ho
    rw [hre]
    exact hla e control s
  | answered hst h =>
    cases h with
    | stale => rw [hn] at ho; cases ho
    | delivered hr hst hd hro hx =>
      rw [hx.task_self (lt_length_of_not_free hk)] at ho
      exact absurd ho (State.terminalResult_of_isRunning hd.continues.running)
    | refused hr hst hne he hx =>
      rw [hx.task_self (lt_length_of_not_free hk), hn] at ho
      cases ho
  | @moved image y z _ t hse hch hm =>
    have hzf := (hf.quota.selects hse).charges hch
    obtain ⟨outcome, control, s, hst, hs, hl, hc, -⟩ := hm.closes hzf ho
    rw [hc] at hfl
    rw [picked_stack hse hch] at hs
    have hcl : (x.quota.task k).cleaning = 0 := by
      obtain ⟨c, ht, -⟩ := x.task_quota k
      rw [ht]
      exact hz hs
    rw [hch.task_eq] at hst hfl
    cases hse with
    | joining hst' => rw [hst] at hst'; cases hst'
    | failing hst' =>
      rw [hst] at hst'
      cases hst'
      exact hla.landed hl
    | working hst' hw =>
      rw [hfl, hcl] at hw
      rcases hw with h | h
      · cases h
      · exact absurd h (lt_irrefl _)
    | interrupted s' hst' hc' hz' hx =>
      obtain ⟨e, he⟩ := hla.faulted .cancelled (x.quota.task k) s'
      have hlt : k < x.quota.tasks.length := by
        rw [length_quota]
        exact lt_length_of_not_free hk
      rw [hx.task_self hlt] at hst
      cases hst
      rw [he] at hl
      exact hla.landed hl

end Execution

theorem Run.struck_error {values : Values S V E} {x₀ x : Execution V E}
    {history : List (Record S V E)} {k : Nat} {o : Except E V} (h : Run values x₀ history x)
    (hla : values.KeepsErrors) (h₀ : x₀.Forest) (hcn : x₀.Counts)
    (hk : Core.struck values history k = true) (ho : (x.task k).state.terminalResult = some o) :
    ∃ e, o = .error e := by
  induction h with
  | nil => cases hk
  | cons r hr he hok ih =>
    subst he
    have hf := hr.forest h₀
    have ha := r.acts values hf
    obtain ⟨hl', hfl, hb⟩ := (Run.cons r hr rfl hok).struck h₀ hcn hk
    simp only [Core.struck, Bool.and_eq_true, Bool.or_eq_true, Bool.not_eq_true'] at hk
    obtain ⟨⟨hl, -⟩, hk⟩ := hk
    rcases hold : (r.before.exec.task k).state.terminalResult with _ | o'
    · refine ha.result hla hf hl hold ho hfl fun hs => ?_
      have hc := hr.counts h₀ hcn k
      have hsa := (Lineage.acts hf ha).base k hl hl'
      rw [hs] at hc
      rw [hc, ← hsa]
      exact hb
    · rw [ha.terminal_stays hf hold hl', hold] at ho
      obtain rfl := Option.some.inj ho
      rcases hk with hk | ⟨⟨hn, -⟩, -⟩
      · exact ih hk hold
      · rw [hold] at hn
        cases hn

/-- In every run: a task that was flagged outside any cleanup before it had its
result, and everything it forks afterwards, asks the host for cleanups only; the
task starts no recovery outside a cleanup; and it ends with an error. -/
theorem cancellation_cannot_be_escaped {image : ProgramImage V E} (hlaw : values.KeepsErrors)
    (h₀ : Started image x₀) (h : Run values x₀ history x) (k : Nat) :
    (∀ r older, r :: older <:+ history → doomed values (r :: older) k = true →
      ∀ request, r.report values = .turn (.request request) → request.task = k →
        request.cleanup = true) ∧
    (∀ r older, r :: older <:+ history → struck values (r :: older) k = true →
      ∀ recover, (r.before.exec.task k).cleaning = 0 →
        ¬ Recovers r.before.exec (r.after values).exec k recover) ∧
    (struck values history k = true → ∀ o, (x.task k).state.terminalResult = some o →
      ∃ e, o = .error e) := by
  have hf₀ := Forest.started h₀
  have hcount₀ := Counts.started h₀
  refine ⟨?_, ?_, fun hk o ho => h.struck_error hlaw hf₀ hcount₀ hk ho⟩
  · intro r older hsuffix hk request hreport htask
    subst htask
    have hrun := h.of_suffix hsuffix
    obtain ⟨-, hmark⟩ := hrun.doomed hf₀ hcount₀ hk
    have hcounts := hrun.counts hf₀ hcount₀ request.task
    cases hrun with
    | cons _ hrun hexec hok =>
      subst hexec
      have hacts := r.acts values (hrun.forest hf₀)
      rw [hreport] at hacts
      obtain ⟨hcleanup, hwork, hsame⟩ := hacts.request
      rw [hcleanup, decide_eq_true_eq, ← hsame]
      rcases hmark with hflag | hbase
      · rcases hwork with hwork | hwork
        · exact absurd (hwork.symm.trans hflag) (by decide)
        · rwa [hsame]
      · exact Nat.lt_of_lt_of_le hbase (hcounts ▸ Nat.le_add_right _ _)
  · intro r older hsuffix hk recover hz hrec
    have hrun := h.of_suffix hsuffix
    obtain ⟨-, hflag, -⟩ := hrun.struck hf₀ hcount₀ hk
    cases hrun with
    | cons _ hrun hexec hok =>
      subst hexec
      have hf := hrun.forest hf₀
      rcases (r.acts values hf).recovers hf hrec with hwork | hwork
      · exact absurd (hwork.symm.trans hflag) (by decide)
      · omega

def outrun : ProgramImage Int Fault where
  nodes := [{ kind := .fork 1 2 .race }, { kind := .request 0 }, { kind := .fork 3 4 .all },
    { kind := .input }, { kind := .request 1 }]
  imports := 2

def outrunCalls : List (Call Int Fault) :=
  List.replicate 6 .turn ++ [.complete 1 1 (.complete (.ok 5))] ++ List.replicate 2 .turn

theorem cancellation_cannot_be_escaped_outrun : ∃ (x₀ x : Execution Int Fault) (history : _),
    Started outrun x₀ ∧ Run numbers x₀ history x ∧ struck numbers history 4 = true ∧
    ∃ e, (x.task 4).state.terminalResult = some (.error e) := by
  obtain ⟨x₀, history, m, h₀, h, -, hm⟩ := run_of_trial outrun 5 10
    (outrunCalls ++ [.complete 4 2 (.complete (.ok 9)), .turn])
    (fun history m => struck numbers history 4 && (m.exec.task 4).state.terminalResult.isSome)
    (by decide +kernel)
  rw [Bool.and_eq_true, Option.isSome_iff_exists] at hm
  obtain ⟨hk, o, ho⟩ := hm
  obtain ⟨-, -, hout⟩ := cancellation_cannot_be_escaped (fun e _ _ => ⟨e, rfl⟩) h₀ h 4
  obtain ⟨e, rfl⟩ := hout hk o ho
  exact ⟨x₀, m.exec, history, h₀, h, hk, e, ho⟩

/-- A loser's subtree is flagged as a whole, also a task in it that already has a value. -/
theorem flagged_with_value : ∃ (x₀ x : Execution Int Fault) (history : _),
    Started outrun x₀ ∧ Run numbers x₀ history x ∧
    (∀ r ∈ history, (r.before.exec.task 3).cancelled = false) ∧ (x.task 3).cancelled = true ∧
    (x.task 3).cleaning = 0 ∧ ∃ v, (x.task 3).state.terminalResult = some (.ok v) := by
  obtain ⟨x₀, history, m, h₀, h, -, hm⟩ := run_of_trial outrun 5 10 outrunCalls
    (fun history m => (history.all fun r => !(r.before.exec.task 3).cancelled) &&
      (m.exec.task 3).cancelled && (m.exec.task 3).cleaning == 0 &&
      (m.exec.task 3).state.terminalResult.any fun o => o.isOk) (by decide +kernel)
  simp only [Bool.and_eq_true, List.all_eq_true, Bool.not_eq_true', beq_iff_eq] at hm
  obtain ⟨⟨⟨hbefore, hflag⟩, hz⟩, hv⟩ := hm
  refine ⟨x₀, m.exec, history, h₀, h, hbefore, hflag, hz, ?_⟩
  obtain ⟨o, ho, hok⟩ := (Option.any_eq_true _ _).mp hv
  cases o with
  | error e => cases hok
  | ok v => exact ⟨v, ho⟩

end Xolotl.Core
