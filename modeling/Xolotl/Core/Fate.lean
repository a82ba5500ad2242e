import Xolotl.Core.Run

/-! What one call does to one task. All but the task that acts stay as they are,
up to their flags; only children that are joined go away. -/

namespace Xolotl.Core

variable {S V E : Type}

namespace Execution

variable (values : Values S V E) (x : Execution V E) (k : Nat) in
inductive Fate : Action V E → Report V E → Execution V E → Prop
  | kept {a : Action V E} {r : Report V E} {x' : Execution V E} (c : Bool)
      (ht : x'.task k = { x.task k with cancelled := c })
      (hc : (x.task k).cancelled = true → c = true) (hs : x'.stack k = x.stack k) :
      Fate a r x'
  | gone {image : ProgramImage V E} {r : Report V E} {x' : Execution V E} {p : Nat} {j : JoinState}
      {o : Except E V} (hp : (x.task p).state = .joining j) (hk : k = j.left ∨ k = j.right)
      (hst : (x.task k).state = .done o) (ht : x'.task k = {}) : Fate (.turn image) r x'
  | halted {image : ProgramImage V E} {result : Except E V} {x' : Execution V E} (hk : k = 0)
      (ht : (x'.task 0).state = .halted result (x.task 0).state.join)
      (hs : x'.stack k = x.stack k) (hroot : (x.task 0).state.terminalResult = none)
      (hresult : ∃ e control s, result = (values.influenceResult (.error e) control s).1) :
      Fate (.turn image) (.turn (.halted result)) x'
  | interrupted {image : ProgramImage V E} {result : Except E V} {x' : Execution V E} (s : S)
      (hst : (x.task k).state = .ready ∨ ∃ v, (x.task k).state = .returning (.ok v))
      (hz : (x.task k).cleaning = 0)
      (ht : x'.task k = { x.task k with
        state := .returning (values.faulted .cancelled (x.quota.task k) s).1, cancelled := true })
      (hs : x'.stack k = x.stack k) : Fate (.turn image) (.turn (.halted result)) x'
  | moved {image : ProgramImage V E} {y z x' : Execution V E} {t : Machine.Turn V E}
      (hsel : Selects values x.quota k y) (hz : Charges y z k) (hm : Moves image values z k t x')
      (hstop : x.quota.stop = some k) : Fate (.turn image) (.turn t) x'
  | answered {image : ProgramImage V E} {ticket node : Nat} {event : HostEvent V E}
      {r : Except Fault Unit} {x' : Execution V E} (hst : (x.task k).state = .waiting ticket node)
      (h : Completed image x k ticket event r x') :
      Fate (.complete image k ticket event) (.complete r) x'

variable {values : Values S V E} {x x' : Execution V E} {k : Nat} {image : ProgramImage V E}
  {t : Machine.Turn V E} {o : Except E V} {a : Action V E} {r : Report V E}

theorem Moves.other {i : Nat} (hf : Forest x)
    (hk : (x.task k).state.isFree = false) (hki : k ≠ i) (h : Moves image values x i t x') :
    x.Flags x' k ∧ x'.stack k = x.stack k ∨
    ∃ j o, (x.task i).state = .joining j ∧ (k = j.left ∨ k = j.right) ∧
      (x.task k).state = .done o ∧ x'.task k = {} := by
  have hp : ∀ {u frames}, Puts x x' i u frames → x.Flags x' k ∧ x'.stack k = x.stack k :=
    fun hx => ⟨⟨_, by rw [hx.task_other hki], id⟩, hx.stack_other hki⟩
  have hsw : ∀ {j}, (x.task i).state = .joining j → x.Flags (x.sweep j) k := fun hst =>
    hf.swept (by rw [hst]; rfl) k
  cases h.course with
  | closed s hst hs hl hx | goes hi hx ht hd => exact .inl (hp hx)
  | forks hst hn hkd hj hx₁ hx =>
    have hta := hx₁.task_other hki
    have hne : k ≠ _ ∧ k ≠ _ := hx.ne_of_live (by rw [hta]; exact hk)
    refine .inl ⟨⟨_, by rw [hx.other k hki hne.1 hne.2, hta], id⟩, ?_⟩
    rw [stack, hx.frames, ← stack, hx₁.stack_eq]
  | sweeps hst => exact .inl ⟨hsw hst, by rw [stack, frames_sweep]; rfl⟩
  | @settles j a b _ _ hst ha hb hx =>
    by_cases hkl : k = j.left
    · subst hkl
      exact .inr ⟨j, a, hst, .inl rfl, ha, hx.left_task⟩
    by_cases hkr : k = j.right
    · subst hkr
      exact .inr ⟨j, b, hst, .inr rfl, hb, hx.right_task⟩
    obtain ⟨c, ht, hc⟩ := hsw hst
    exact .inl ⟨⟨c, (hx.other k hki hkl hkr).trans ht, hc⟩, hf.stack_joins ha hb hx k⟩

theorem Moves.popped
    {frame : FrameKind V E} {rest : List (FrameKind V E)} (h : Moves image values x k t x')
    (hst : (x.task k).state = .returning o) (hs : x.stack k = frame :: rest) :
    ∃ pushed, x'.stack k = pushed ++ rest ∧
      (pushed = [] ∨ ∃ u outcome u', Resumes image values u outcome frame u' pushed) := by
  cases h with
  | closed s hst' hs' => rw [hs] at hs'; cases hs'
  | resumed s hst' hs' hl hr hx =>
    rw [hs] at hs'
    cases hs'
    exact ⟨_, hx.stack_self, .inr ⟨_, _, _, hr⟩⟩
  | stuck s s' hst' hs' hl hne hcl he hx =>
    rw [hs] at hs'
    cases hs'
    exact ⟨[], hx.stack_self, .inl rfl⟩
  | dispatched hst' | requested hst' | refused _ hst' | forked hst' | starved _ hst' | swept hst'
  | joined _ _ hst' | broken _ hst' => rw [hst] at hst'; cases hst'

theorem Turned.fate (hf : Forest x)
    (h : Turned image values x t x') (hk : (x.task k).state.isFree = false) :
    Fate values x k (.turn image) (.turn t) x' := by
  have hq : ∀ {r}, Fate values x k (.turn image) r x.quota := by
    intro r
    obtain ⟨c, ht, hc⟩ := x.task_quota k
    exact .kept c ht hc (x.stack_quota k)
  cases h with
  | done => exact .kept _ rfl id rfl
  | waiting | cancel => exact hq
  | @halted i y _ result hr hsl hx hsp hre =>
    have hs : x'.stack k = x.stack k := by rw [hx.stack_eq, hsl.stack_eq, stack_quota]
    by_cases hk0 : k = 0
    · have h0 : 0 < y.tasks.length := (hf.quota.selects hsl).lt_length_root
      refine .halted hk0 ?_ hs hr hre
      rw [hx.task_self h0]
      rw [hsl.join_eq, state_quota]
    · obtain ⟨state, c, ht, hc, hse⟩ := picked_task hsl k
      rw [← hx.task_other hk0] at ht
      rcases hse with rfl | ⟨-, rfl, hz, hst, s, rfl⟩
      · exact .kept c ht hc hs
      · exact .interrupted s hst hz ht hs
  | @moved i y z _ _ hr hsl hz hm hsp =>
    by_cases hki : k = i
    · subst hki
      exact .moved hsl hz hm hsp
    · have hzf := (hf.quota.selects hsl).charges hz
      obtain ⟨state, c, ht, hc, hse⟩ := picked_task hsl k
      obtain rfl : state = (x.task k).state := by
        rcases hse with h | ⟨h, -⟩
        · exact h
        · exact absurd h hki
      rw [← hz.task_eq] at ht
      have hsk : z.stack k = x.stack k := by rw [hz.stack_eq, hsl.stack_eq, stack_quota]
      rcases hm.other hzf (by rw [ht]; exact hk) hki with
        ⟨⟨c', ht', hc'⟩, hs'⟩ | ⟨j, o, hst, hkj, hd, hg⟩
      · refine .kept c' (by rw [ht', ht]) (fun h => hc' ?_) (hs'.trans hsk)
        rw [ht]
        exact hc h
      · refine .gone (p := i) ?_ hkj (by rw [ht] at hd; exact hd) hg
        obtain ⟨state, c, ht, -, hse⟩ := picked_task hsl i
        rw [← hz.task_eq] at ht
        rw [ht] at hst
        rcases hse with rfl | ⟨-, -, -, -, s, rfl⟩
        · exact hst
        · cases hst

theorem Acts.fate (hf : Forest x) (h : Acts values x a r x')
    (hk : (x.task k).state.isFree = false) : Fate values x k a r x' := by
  cases h with
  | turn h => exact h.fate hf hk
  | cancel =>
    obtain ⟨c, ht, hc, -⟩ := x.task_cancel' k
    exact .kept c ht hc (by rw [stack, frames_cancel]; rfl)
  | @complete image i ticket event r x' h =>
    by_cases hki : k = i
    · subst hki
      cases h with
      | stale => exact .kept _ rfl id rfl
      | delivered hr hst hd hro hx => exact .answered hst (.delivered hr hst hd hro hx)
      | refused hr hst hne he hx => exact .answered hst (.refused hr hst hne he hx)
    · cases h with
      | stale => exact .kept _ rfl id rfl
      | delivered hr hst hd hro hx =>
        exact .kept _ (by rw [hx.task_other hki]) id (hx.stack_other hki)
      | refused hr hst hne he hx =>
        exact .kept _ (by rw [hx.task_other hki]) id (hx.stack_other hki)

theorem Acts.terminal_stays (hf : Forest x)
    (h : Acts values x a r x') (ho : (x.task k).state.terminalResult = some o)
    (hk' : (x'.task k).state.isFree = false) : (x'.task k).state = (x.task k).state := by
  have hl : (x.task k).state.isFree = false := by
    cases hst : (x.task k).state <;> rw [hst] at ho <;> first | rfl | cases ho
  cases h.fate hf hl with
  | kept c ht => rw [ht]
  | gone hp hkj hst ht => rw [ht] at hk'; cases hk'
  | halted hk ht hs hr => subst hk; rw [ho] at hr; cases hr
  | interrupted s hst => rcases hst with hst | ⟨v, hst⟩ <;> rw [hst] at ho <;> cases ho
  | answered hst => rw [hst] at ho; cases ho
  | moved hse hz hm =>
    have hn := hse.terminalResult_eq
    rw [state_quota, ho] at hn
    cases hn

end Execution
end Xolotl.Core
