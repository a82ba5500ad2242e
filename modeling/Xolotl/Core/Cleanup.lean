import Xolotl.Core.Counter
import Xolotl.Lib.Obligation

/-! Every body of a `finally_` that is started owes its cleanup; the cleanup starts
exactly once, with the input of the instruction, when the body is over. -/

namespace Xolotl.Core

open List

variable {S V E : Type}

/-- The cleanups a stack still has to start, the innermost first. -/
def finallies (stack : List (FrameKind V E)) : List (Nat × V) := stack.filterMap FrameKind.pending

@[simp] theorem finallies_nil : finallies ([] : List (FrameKind V E)) = [] := rfl

theorem finallies_append (l l' : List (FrameKind V E)) :
    finallies (l ++ l') = finallies l ++ finallies l' := filterMap_append

theorem eq_finally_of_pending {frame : FrameKind V E} {cleanup : Nat} {input : V}
    (h : frame.pending = some (cleanup, input)) : frame = .finally_ cleanup input := by
  cases frame <;> cases h
  rfl

theorem finallies_cons_none {frame : FrameKind V E} (h : frame.pending = none)
    (rest : List (FrameKind V E)) : finallies (frame :: rest) = finallies rest :=
  filterMap_cons_none h

variable {values : Values S V E} {x₀ x : Execution V E} {history : List (Record S V E)}

theorem Resumes.of_finally {image : ProgramImage V E} {t t' : Task V E}
    {outcome : Except E V} {cleanup : Nat} {input : V} {pushed : List (FrameKind V E)}
    (h : Resumes image values t outcome (.finally_ cleanup input) t' pushed) :
    t' = { t with cleaning := t.cleaning + 1 }.started cleanup input ∧
      pushed = [.cleaned outcome] := by
  cases h with
  | finally_ => exact ⟨rfl, rfl⟩
  | passed hf => cases hf

theorem Enters.finallies_eq {pc : Nat} {input : V} {kind : NodeKind V E}
    {frames : List (FrameKind V E)} {entry : Nat} (h : Enters pc input kind frames entry) :
    finallies frames = [] ∨ ∃ cleanup, kind = .finally_ entry cleanup ∧
      frames = [.finally_ cleanup input, .finish pc] := by
  cases h with
  | finally_ => exact .inr ⟨_, rfl, rfl⟩
  | _ => exact .inl rfl

namespace Execution

/-- A call starts the body of a `finally_` in task `k`: the task is ready at the
instruction, its cancellation does not interrupt it, and it moves on to the body. -/
structure Opens (a : Action V E) (x x' : Execution V E) (k cleanup : Nat) (input : V) : Prop where
  instruction : ∃ image node, a = .turn image ∧ image.node (x.task k).pc = .ok node ∧
    node.kind = .finally_ (x'.task k).pc cleanup
  ready : (x.task k).state = .ready
  owned : (x.task k).input = some input
  shielded : (x'.task k).cancelled = false ∨ 0 < (x.task k).cleaning
  moved : (x'.task k).pc ≠ (x.task k).pc ∨ x'.stack k ≠ x.stack k
  body_ready : (x'.task k).state = .ready

/-- A call starts a cleanup in task `k`: the body is over, by its outcome or by
the task's cancellation, and the enclosing frames stay. -/
structure Cleans (x x' : Execution V E) (k cleanup : Nat) (input : V) : Prop where
  body : (∃ o, (x.task k).state = .returning o) ∨
    (x.task k).state = .ready ∧ (x'.task k).cancelled = true
  frames : ∃ rest outcome, x.stack k = .finally_ cleanup input :: rest ∧
    x'.stack k = .cleaned outcome :: rest
  ready : (x'.task k).state = .ready
  pc : (x'.task k).pc = cleanup
  owned : (x'.task k).input = some input
  counter : (x'.task k).cleaning = (x.task k).cleaning + 1

inductive Stacked (a : Action V E) (x x' : Execution V E) : Prop
  | same (h : ∀ k, x'.stack k = x.stack k)
  | grown {i : Nat} {above : List (FrameKind V E)} (hs : x'.stack i = above ++ x.stack i)
      (hp : finallies above = []) (ho : ∀ k, k ≠ i → x'.stack k = x.stack k)
  | shifted {i : Nat} {frame : FrameKind V E} {rest pushed : List (FrameKind V E)}
      (hs : x.stack i = frame :: rest) (hs' : x'.stack i = pushed ++ rest)
      (hf : frame.pending = none) (hp : finallies pushed = [])
      (ho : ∀ k, k ≠ i → x'.stack k = x.stack k)
  | opened {i cleanup : Nat} {input : V} (h : Opens a x x' i cleanup input)
      (hs : x'.stack i = .finally_ cleanup input :: .finish (x.task i).pc :: x.stack i)
      (ho : ∀ k, k ≠ i → x'.stack k = x.stack k)
  | cleaned {i cleanup : Nat} {input : V} (h : Cleans x x' i cleanup input)
      (ho : ∀ k, k ≠ i → x'.stack k = x.stack k)

variable {x x' : Execution V E} {values : Values S V E} {a : Action V E} {k cleanup : Nat}
  {input : V}

theorem Opens.of_frames {image : ProgramImage V E} {node : Node V E}
    (hn : image.node (x.task k).pc = .ok node)
    (hk : node.kind = .finally_ (x'.task k).pc cleanup) (hst : (x.task k).state = .ready)
    (hin : (x.task k).input = some input)
    (hsh : (x'.task k).cancelled = false ∨ 0 < (x.task k).cleaning)
    (hre : (x'.task k).state = .ready)
    (hs : x'.stack k = .finally_ cleanup input :: .finish (x.task k).pc :: x.stack k) :
    Opens (.turn image) x x' k cleanup input := by
  refine ⟨⟨image, node, rfl, hn, hk⟩, hst, hin, hsh, .inr fun h => ?_, hre⟩
  have hl := congrArg List.length (hs.symm.trans h)
  simp only [length_cons] at hl
  omega

theorem finallies_of_other {i : Nat} (ho : ∀ k, k ≠ i → x'.stack k = x.stack k)
    (hi : finallies (x'.stack i) = finallies (x.stack i)) (k : Nat) :
    finallies (x'.stack k) = finallies (x.stack k) := by
  by_cases hk : k = i
  · rw [hk, hi]
  · rw [ho k hk]

theorem Stacked.turned {image : ProgramImage V E}
    {r : Machine.Turn V E} (hf : Forest x) (h : Turned image values x r x') :
    Stacked (.turn image) x x' := by
  cases h with
  | done => exact .same fun _ => rfl
  | waiting | cancel => exact .same x.stack_quota
  | halted hrt hsl hx =>
    refine .same fun k => ?_
    rw [← x.stack_quota, ← hsl.stack_eq, hx.stack_eq]
  | @moved i y z _ _ hrt hsl hz hm =>
    have hzf := (hf.quota.selects hsl).charges hz
    have hsk : ∀ k, z.stack k = x.stack k := fun k => by
      rw [hz.stack_eq, hsl.stack_eq, stack_quota]
    have hpu : ∀ {t frames}, Puts z x' i t frames → x'.stack i = frames ∧
        ∀ k, k ≠ i → x'.stack k = x.stack k := fun hx =>
      ⟨hx.stack_self, fun k hk => by rw [hx.stack_other hk, hsk]⟩
    obtain ⟨state, c, ht, -, hstate⟩ := picked_task hsl i
    rw [← hz.task_eq] at ht
    have hpo : ∀ {frame rest pushed}, z.stack i = frame :: rest → frame.pending = none →
        finallies pushed = [] → x'.stack i = pushed ++ rest →
        (∀ k, k ≠ i → x'.stack k = x.stack k) → Stacked (.turn image) x x' :=
      fun hs hp hps hs' ho => .shifted (by rw [← hsk, hs]) hs' hp hps ho
    cases hm with
    | closed s hst hs hl hx =>
      obtain ⟨hse, hot⟩ := hpu hx
      refine .same fun k => ?_
      by_cases hk : k = i
      · rw [hk, hse, ← hsk, hs]
      · exact hot k hk
    | @resumed outcome outcome' control frame rest pushed t _ s hst hs hl hr hx =>
      obtain ⟨hse, hot⟩ := hpu hx
      rcases hp : frame.pending with _ | ⟨cleanup, input⟩
      · exact hpo hs hp (by cases hr <;> rfl) hse hot
      · obtain rfl := eq_finally_of_pending hp
        obtain ⟨rfl, rfl⟩ := hr.of_finally
        have hlt : i < z.tasks.length := lt_length_of_not_free (by rw [hst]; rfl)
        have ht' := hx.task_self hlt
        refine .cleaned ⟨?_, ⟨rest, outcome', by rw [← hsk, hs], hse⟩, ?_, ?_, ?_, ?_⟩ hot
        · rw [ht] at hst
          rcases hstate with rfl | ⟨-, hc, -, hw, -⟩
          · exact .inl ⟨_, hst⟩
          · rcases hw with hre | ⟨v, hret⟩
            · refine .inr ⟨hre, ?_⟩
              rw [ht', ht]
              exact hc
            · exact .inl ⟨_, hret⟩
        · rw [ht']
          rfl
        · rw [ht']
          rfl
        · rw [ht']
          rfl
        · rw [ht', ht]
          rfl
    | @stuck outcome outcome' control frame rest e _ s s' hst hs hl hne hcl he hx =>
      obtain ⟨hse, hot⟩ := hpu hx
      rcases hp : frame.pending with _ | ⟨cleanup, input⟩
      · exact hpo hs hp finallies_nil hse hot
      · obtain rfl := eq_finally_of_pending hp
        have hro := he (.inr ⟨cleanup, input, rfl⟩)
        have hle := hzf.le_room i
        rw [hs, length_cons] at hle
        omega
    | @dispatched node v input t pushed _ hst hv hn hd hro hx =>
      obtain ⟨hse, hot⟩ := hpu hx
      rw [hsk] at hse
      have hlt : i < z.tasks.length := lt_length_of_not_free (by rw [hst]; rfl)
      have ht' := hx.task_self hlt
      have hre : (x.task i).state = .ready := by
        rcases hstate with rfl | ⟨-, -, -, -, s, rfl⟩
        · rw [ht] at hst
          exact hst
        · rw [ht] at hst
          cases hst
      cases hd with
      | leaf => exact .grown hse rfl hot
      | enter he =>
        rcases he.finallies_eq with hno | ⟨cleanup, hki, rfl⟩
        · exact .grown hse hno hot
        · rw [ht] at hv hn hse
          have hsh := picked_ready hsl hz hst
          rw [ht] at hsh
          refine .opened (.of_frames hn ?_ hre hv ?_ ?_ hse) hse hot
          · rw [ht']
            exact hki
          · rw [ht', ht]
            exact hsh
          · rw [ht']
            rfl
    | requested hst hv hn hd hx =>
      obtain ⟨hse, hot⟩ := hpu hx
      rw [hsk] at hse
      cases hd
      exact .grown hse rfl hot
    | refused s hst hp hro he hne hx =>
      obtain ⟨hse, hot⟩ := hpu hx
      rw [hsk] at hse
      refine .grown hse ?_ hot
      rcases hp with rfl | rfl <;> rfl
    | forked hst hv hn hk hj hx₁ hx =>
      refine .same fun k => ?_
      rw [stack, hx.frames, ← stack, hx₁.stack_eq, hsk]
    | starved s hst hn hk hfr hx =>
      obtain ⟨hse, hot⟩ := hpu hx
      exact .grown (by rw [hse, hsk]; rfl) finallies_nil hot
    | swept hst hdo =>
      refine .same fun k => ?_
      rw [stack, frames_sweep]
      exact hsk k
    | joined s s' hst ha hb hn hx =>
      exact .same fun k => by rw [hzf.stack_joins ha hb hx, hsk]
    | broken s hst ha hb hn hx =>
      exact .same fun k => by rw [hzf.stack_joins ha hb hx, hsk]

variable {r : Report V E} {rest : List (FrameKind V E)}

theorem Stacked.acts (hf : Forest x) (h : Acts values x a r x') : Stacked a x x' := by
  cases h with
  | turn h => exact .turned hf h
  | cancel => exact .same fun k => by rw [stack, frames_cancel]; rfl
  | complete h =>
    cases h with
    | stale => exact .same fun _ => rfl
    | delivered hr hst hd hro hx =>
      refine .grown hx.stack_self ?_ fun k hk => hx.stack_other hk
      cases hd <;> rfl
    | refused hr hst hne he hx => exact .same hx.stack_eq

variable {image : ProgramImage V E}

theorem Moves.cancelled_eq {t : Machine.Turn V E} {o : Except E V}
    (h : Moves image values x k t x') (hst : (x.task k).state = .returning o) :
    (x'.task k).cancelled = (x.task k).cancelled := by
  have hlt : k < x.tasks.length := lt_length_of_not_free (by rw [hst]; rfl)
  cases h with
  | closed s hst' hs hl hx => rw [hx.task_self hlt]
  | stuck s s' hst' hs hl hne hcl he hx =>
    rw [hx.task_self hlt]
    rfl
  | resumed s hst' hs hl hr hx =>
    rw [hx.task_self hlt]
    exact hr.continues.cancelled
  | dispatched hst' | requested hst' | refused _ hst' | forked hst' | starved _ hst' | swept hst'
  | joined _ _ hst' | broken _ hst' => rw [hst] at hst'; cases hst'

/-- A ready task at a `finally_` gets the frames of the instruction and goes to the body,
unless it is not its turn, it is interrupted, or the call faults or halts the machine. -/
theorem Acts.at_finally {node : Node V E} {body : Nat} (hf : Forest x)
    (h : Acts values x (.turn image) r x') (hst : (x.task k).state = .ready)
    (hin : (x.task k).input = some input) (hn : image.node (x.task k).pc = .ok node)
    (hk : node.kind = .finally_ body cleanup) :
    (x'.stack k = .finally_ cleanup input :: .finish (x.task k).pc :: x.stack k ∧
      (x'.task k).state = .ready ∧ (x'.task k).pc = body ∧ (x'.task k).input = some input ∧
      ((x'.task k).cancelled = false ∨ 0 < (x.task k).cleaning)) ∨
    ((x'.task k).state = .ready ∧ (x'.task k).pc = (x.task k).pc ∧ x'.stack k = x.stack k) ∨
    ((x'.task k).cancelled = true ∧ (x.task k).cleaning = 0) ∨
    (x'.task k).state ≠ .ready ∧
      ((∃ e, r = .turn (.faulted e)) ∨ (x'.task 0).state.terminalResult ≠ none) := by
  cases h.fate hf (k := k) (by rw [hst]; rfl) with
  | kept c ht hc hs => exact .inr (.inl ⟨by rw [ht, hst], by rw [ht], hs⟩)
  | gone hp hkj hd ht => rw [hst] at hd; cases hd
  | halted h0 ht hs =>
    subst h0
    refine .inr (.inr (.inr ⟨?_, .inr ?_⟩)) <;> rw [ht]
    · nofun
    · exact Option.some_ne_none _
  | interrupted s hst' hz ht hs => exact .inr (.inr (.inl ⟨by rw [ht], hz⟩))
  | @moved _ y z _ t hsl hz hm =>
    have hsk := picked_stack hsl hz k
    obtain ⟨state, c, ht, -, hse⟩ := picked_task hsl k
    rw [← hz.task_eq] at ht
    rcases hse with rfl | ⟨-, rfl, hzero, -, s, rfl⟩
    · have hzs : (z.task k).state = .ready := by rw [ht, hst]
      have hlt : k < z.tasks.length := lt_length_of_not_free (by rw [hzs]; rfl)
      have hne : ∀ {node' : Node V E}, image.node (z.task k).pc = .ok node' → node' = node := by
        intro node' h'
        rw [ht] at h'
        exact Except.ok.inj (h'.symm.trans hn)
      cases hm with
      | dispatched hst' hv hn' hd hro hx =>
        obtain rfl := hne hn'
        rw [ht] at hv
        obtain rfl : input = _ := Option.some.inj (hin.symm.trans hv)
        have hsh := picked_ready hsl hz hzs
        rw [ht] at hsh
        cases hd with
        | leaf hl => rw [hk] at hl; cases hl
        | enter he =>
          rw [hk] at he
          cases he
          rw [hx.stack_self, hx.task_self hlt, hsk, ht]
          exact .inl ⟨rfl, rfl, rfl, rfl, hsh⟩
      | refused s hst' hp hro he hne' hx =>
        refine .inr (.inr (.inr ⟨?_, .inl ⟨_, rfl⟩⟩))
        rw [hx.task_self hlt]
        nofun
      | requested hst' hv hn' hd =>
        obtain rfl := hne hn'
        cases hd with
        | request hk' => rw [hk] at hk'; cases hk'
      | forked hst' hv hn' hk' | starved s hst' hn' hk' =>
        obtain rfl := hne hn'
        rw [hk] at hk'
        cases hk'
      | closed _ hst' | resumed _ hst' | stuck _ _ hst' | swept hst' | joined _ _ hst'
      | broken _ hst' => rw [hzs] at hst'; cases hst'
    · refine .inr (.inr (.inl ⟨?_, hzero⟩))
      rw [hm.cancelled_eq (o := _) (by rw [ht]), ht]

theorem Opens.frames (hf : Forest x) (h : Acts values x a r x')
    (ho : Opens a x x' k cleanup input) :
    x'.stack k = .finally_ cleanup input :: .finish (x.task k).pc :: x.stack k := by
  obtain ⟨image, node, rfl, hn, hk⟩ := ho.instruction
  rcases h.at_finally hf ho.ready ho.owned hn hk with
    ⟨hs, -⟩ | ⟨-, hpc, hs⟩ | ⟨hc, hz⟩ | ⟨hne, -⟩
  · exact hs
  · exact (ho.moved.elim (· hpc) (· hs)).elim
  · rcases ho.shielded with hc' | hz'
    · rw [hc] at hc'
      cases hc'
    · omega
  · exact absurd ho.body_ready hne

theorem Opens.finallies_eq (hf : Forest x) (h : Acts values x a r x')
    (ho : Opens a x x' k cleanup input) :
    finallies (x'.stack k) = (cleanup, input) :: finallies (x.stack k) := by
  rw [ho.frames hf h]
  rfl

theorem Cleans.finallies_eq (h : Cleans x x' k cleanup input) :
    finallies (x.stack k) = (cleanup, input) :: finallies (x'.stack k) := by
  obtain ⟨rest, outcome, hs, hs'⟩ := h.frames
  rw [hs, hs']
  rfl

theorem Stacked.finally_stays (h : Stacked a x x')
    (hs : x.stack k = .finally_ cleanup input :: rest) :
    (∃ above, x'.stack k = above ++ .finally_ cleanup input :: rest) ∨
      Cleans x x' k cleanup input := by
  by_cases hk : x'.stack k = x.stack k
  · exact .inl ⟨[], by rw [hk, hs]; rfl⟩
  have hse : ∀ {i}, (∀ k, k ≠ i → x'.stack k = x.stack k) → i = k := by
    intro i ho
    by_contra hne
    exact hk (ho k (Ne.symm hne))
  cases h with
  | same h => exact absurd (h k) hk
  | grown hs' hp ho =>
    obtain rfl := hse ho
    exact .inl ⟨_, by rw [hs', hs]⟩
  | shifted hs' hs'' hf hp ho =>
    obtain rfl := hse ho
    rw [hs] at hs'
    rw [← (List.cons.inj hs').1] at hf
    cases hf
  | @opened i cleanup' input' ho' hs' ho =>
    obtain rfl := hse ho
    refine .inl ⟨[.finally_ cleanup' input', .finish (x.task i).pc], ?_⟩
    rw [hs', hs]
    rfl
  | cleaned hc ho =>
    obtain rfl := hse ho
    have heq := hc.finallies_eq
    rw [hs] at heq
    obtain ⟨rfl, rfl⟩ := Prod.mk.inj (List.cons.inj heq).1
    exact .inr hc

/-- A task that is done with a body never fails to start the cleanup: it does so as
soon as it is its turn, unless the machine halts. -/
theorem Acts.enters_cleanup (hf : Forest x) (h : Acts values x a r x') {o : Except E V}
    (hst : (x.task k).state = .returning o) (hs : x.stack k = .finally_ cleanup input :: rest) :
    Cleans x x' k cleanup input ∨ x'.stack k = x.stack k ∧
      ((∃ o', (x'.task k).state = .returning o') ∨ (x'.task 0).state.terminalResult ≠ none) := by
  have hss := (Stacked.acts hf h).finally_stays hs
  cases h.fate hf (k := k) (by rw [hst]; rfl) with
  | kept c ht hc hs' => exact .inr ⟨hs', .inl ⟨o, by rw [ht, hst]⟩⟩
  | gone hp hk hd ht => rw [hst] at hd; cases hd
  | halted hk ht hs' => exact .inr ⟨hs', .inr (by rw [ht]; exact Option.some_ne_none _)⟩
  | interrupted s hst' hz ht hs' => exact .inr ⟨hs', .inl ⟨_, by rw [ht]⟩⟩
  | answered hst' h => rw [hst] at hst'; cases hst'
  | @moved image y z _ t hsl hz hm =>
    rcases hss with ⟨above, ha⟩ | hcl
    · -- The frame is popped, so what is above it would have to be the frame itself.
      have hsk : z.stack k = .finally_ cleanup input :: rest := by
        rw [hz.stack_eq, hsl.stack_eq, stack_quota, hs]
      have hre : ∃ o, (z.task k).state = .returning o := by
        obtain ⟨state, c, ht, -, hse⟩ := picked_task hsl k
        rw [hz.task_eq, ht]
        rcases hse with rfl | ⟨-, -, -, -, s, rfl⟩
        · exact ⟨o, hst⟩
        · exact ⟨_, rfl⟩
      obtain ⟨o', hre⟩ := hre
      obtain ⟨pushed, hpo, hps⟩ := hm.popped hre hsk
      rw [hpo] at ha
      have hl := congrArg List.length ha
      simp only [length_append, length_cons] at hl
      rcases hps with rfl | ⟨u, outcome, u', hr⟩
      · rw [length_nil] at hl
        omega
      · obtain ⟨-, rfl⟩ := hr.of_finally
        rw [length_singleton] at hl
        obtain rfl : above = [] := length_eq_zero_iff.mp (by omega)
        cases ha
    · exact .inl hcl

end Execution

/-! ## The ledger of a run -/

open Execution

inductive CleanupEvent (V : Type)
  | opened (task cleanup : Nat) (input : V)
  | cleaned (task cleanup : Nat) (input : V)

def CleanupEvent.task : CleanupEvent V → Nat
  | .opened k _ _ => k
  | .cleaned k _ _ => k

def CleanupEvent.Occurs (values : Values S V E) (r : Record S V E) : CleanupEvent V → Prop
  | .opened k cleanup input => Opens r.action r.before.exec (r.after values).exec k cleanup input
  | .cleaned k cleanup input => Cleans r.before.exec (r.after values).exec k cleanup input

/-- The obligations of a run: a started body owes its cleanup until that starts.
A cleanup must be the one its task owes next, with the same input. -/
inductive Ledger (values : Values S V E) : List (Record S V E) → Obligations Nat (Nat × V) → Prop
  | nil : Ledger values [] .empty
  | quiet {r : Record S V E} {history : List (Record S V E)} {g : Obligations Nat (Nat × V)}
      (hg : Ledger values history g) (hnone : ∀ e : CleanupEvent V, ¬ e.Occurs values r) :
      Ledger values (r :: history) g
  | opened {r : Record S V E} {history : List (Record S V E)} {g : Obligations Nat (Nat × V)}
      {k cleanup : Nat} {input : V} (hg : Ledger values history g)
      (ho : (CleanupEvent.opened k cleanup input).Occurs values r)
      (honly : ∀ e : CleanupEvent V, e.Occurs values r → e = .opened k cleanup input) :
      Ledger values (r :: history) (g.incur k (cleanup, input))
  | cleaned {r : Record S V E} {history : List (Record S V E)} {g : Obligations Nat (Nat × V)}
      {k cleanup n : Nat} {input : V} {rest : List (Nat × Nat × V)} (hg : Ledger values history g)
      (ho : (CleanupEvent.cleaned k cleanup input).Occurs values r)
      (honly : ∀ e : CleanupEvent V, e.Occurs values r → e = .cleaned k cleanup input)
      (hp : g.pending k = (n, cleanup, input) :: rest) :
      Ledger values (r :: history) (g.discharge k)

namespace CleanupEvent

variable {values : Values S V E} {r : Record S V E} {e : CleanupEvent V}

theorem Occurs.finallies_ne (hf : r.before.exec.Forest) (h : e.Occurs values r) :
    finallies ((r.after values).exec.stack e.task) ≠ finallies (r.before.exec.stack e.task) := by
  cases e with
  | opened k cleanup input =>
    rw [task, Opens.finallies_eq hf (r.acts values hf) h]
    simp
  | cleaned k cleanup input =>
    rw [task, Cleans.finallies_eq h]
    simp

theorem Occurs.unique {e' : CleanupEvent V} (hf : r.before.exec.Forest) (h : e.Occurs values r)
    (h' : e'.Occurs values r) (ht : e.task = e'.task) : e = e' := by
  have hop : ∀ {k cleanup input}, (CleanupEvent.opened k cleanup input).Occurs values r →
      finallies ((r.after values).exec.stack k) =
        (cleanup, input) :: finallies (r.before.exec.stack k) :=
    fun h => Opens.finallies_eq hf (r.acts values hf) h
  rcases e with ⟨k, cleanup, input⟩ | ⟨k, cleanup, input⟩ <;>
    rcases e' with ⟨k', cleanup', input'⟩ | ⟨k', cleanup', input'⟩ <;>
    obtain rfl : k = k' := ht
  · have heq := (hop h).symm.trans (hop h')
    obtain ⟨rfl, rfl⟩ := Prod.mk.inj (List.cons.inj heq).1
    rfl
  · have heq := Cleans.finallies_eq h'
    rw [hop h] at heq
    have hl := congrArg List.length heq
    simp only [length_cons] at hl
    omega
  · have heq := Cleans.finallies_eq h
    rw [hop h'] at heq
    have hl := congrArg List.length heq
    simp only [length_cons] at hl
    omega
  · have heq := (Cleans.finallies_eq h).symm.trans (Cleans.finallies_eq h')
    obtain ⟨rfl, rfl⟩ := Prod.mk.inj (List.cons.inj heq).1
    rfl

theorem Occurs.only (hf : r.before.exec.Forest) (h : e.Occurs values r)
    (ho : ∀ k, k ≠ e.task → (r.after values).exec.stack k = r.before.exec.stack k) :
    ∀ e' : CleanupEvent V, e'.Occurs values r → e' = e := by
  intro e' h'
  refine h'.unique hf h ?_
  by_contra hne
  exact h'.finallies_ne hf (congrArg finallies (ho _ hne))

end CleanupEvent

theorem Ledger.of_run (h₀ : x₀.Forest) (hem : ∀ k, x₀.stack k = [])
    (h : Run values x₀ history x) : ∃ g, Ledger values history g ∧ g.Sound ∧
      ∀ k, (g.pending k).map Prod.snd = finallies (x.stack k) := by
  induction h with
  | nil =>
    refine ⟨.empty, .nil, Obligations.sound_empty, fun k => ?_⟩
    rw [hem]
    rfl
  | @cons history x r hru hex hok ih =>
    subst hex
    obtain ⟨g, hg, hso, hpe⟩ := ih
    have hf := hru.forest h₀
    have hq : (∀ k, finallies ((r.after values).exec.stack k) =
        finallies (r.before.exec.stack k)) → ∃ g, Ledger values (r :: history) g ∧ g.Sound ∧
          ∀ k, (g.pending k).map Prod.snd = finallies ((r.after values).exec.stack k) := by
      intro hsa
      exact ⟨g, hg.quiet fun e he => he.finallies_ne hf (hsa _), hso,
        fun k => by rw [hsa, hpe]⟩
    cases Stacked.acts hf (r.acts values hf) with
    | same hs => exact hq fun k => congrArg finallies (hs k)
    | grown hs hp ho =>
      refine hq (finallies_of_other ho ?_)
      rw [hs, finallies_append, hp, nil_append]
    | shifted hs hs' hf hp ho =>
      refine hq (finallies_of_other ho ?_)
      rw [hs', hs, finallies_append, hp, finallies_cons_none hf, nil_append]
    | @opened i cleanup input hop hs ho =>
      have hev : (CleanupEvent.opened i cleanup input).Occurs values r := hop
      refine ⟨_, hg.opened hev (hev.only hf ho), hso.incur _ _, fun k => ?_⟩
      by_cases hk : k = i
      · subst hk
        rw [Obligations.pending_incur_self, map_cons, hpe, hs]
        rfl
      · rw [Obligations.pending_incur_other hk, hpe]
        exact congrArg finallies (ho k hk).symm
    | @cleaned i cleanup input hc ho =>
      have hev : (CleanupEvent.cleaned i cleanup input).Occurs values r := hc
      have how := hpe i
      rw [Cleans.finallies_eq hev] at how
      rcases hp : g.pending i with _ | ⟨⟨n, entry⟩, rest⟩
      · rw [hp] at how
        cases how
      · rw [hp] at how
        obtain ⟨hen, hr⟩ := List.cons.inj how
        obtain rfl : entry = (cleanup, input) := hen
        refine ⟨_, hg.cleaned hev (hev.only hf ho) hp, hso.discharge _, fun k => ?_⟩
        by_cases hk : k = i
        · subst hk
          rw [Obligations.pending_discharge_self, hp]
          exact hr
        · rw [Obligations.pending_discharge_other hk, hpe]
          exact congrArg finallies (ho k hk).symm

theorem Ledger.next_pos {g : Obligations Nat (Nat × V)} (h : Ledger values history g)
    {r : Record S V E} (hr : r ∈ history) {k cleanup : Nat} {input : V}
    (ho : (CleanupEvent.opened k cleanup input).Occurs values r) : 0 < g.next := by
  induction h with
  | nil => cases hr
  | quiet hg hnone ih =>
    rcases mem_cons.mp hr with rfl | hr
    · exact absurd ho (hnone _)
    · exact ih hr
  | opened hg hev honly ih => exact Nat.succ_pos _
  | cleaned hg hev honly hp ih =>
    rcases mem_cons.mp hr with rfl | hr
    · cases honly _ ho
    · exact ih hr

/-! ## Counters -/

/-- The counter a task inherited at its fork: that of its parent at the time. -/
def inherited (values : Values S V E) : List (Record S V E) → Nat → Nat
  | [], _ => 0
  | r :: history, i =>
    if (r.before.exec.task i).state.isFree then
      match ((r.after values).exec.task i).parent with
      | some p => (r.before.exec.task p).cleaning
      | none => 0
    else inherited values history i

theorem inherited_eq (h₀ : x₀.Forest) (hls : ∀ k, x₀.links k = none)
    (h : Run values x₀ history x) {i : Nat} (hi : (x.task i).state.isFree = false) :
    inherited values history i = x.base i := by
  induction h with
  | nil => rw [base, hls]; rfl
  | cons r hr he hok ih =>
    subst he
    have hli := Lineage.acts (hr.forest h₀) (r.acts values (hr.forest h₀))
    rw [inherited]
    split
    · next hf =>
      obtain ⟨p, hp, -, hc, -⟩ := hli.born i hf hi
      have hpa : ((r.after values).exec.task i).parent = some p := hp
      rw [hpa, base, show (r.after values).exec.links i = some p from hp]
      exact hc.symm
    · next hl =>
      rw [Bool.not_eq_true] at hl
      rw [ih hl]
      exact (hli.base i hl hi).symm

/-! ## Cleanup -/

/-- Over a whole run, every `finally_` body that was started has its cleanup
started exactly once, or still pending on the stack; once the root is done,
nothing is pending. A task whose turn it is at a `finally_` starts the body, unless it
is cancelled or the call faults. No call drops the frame of a pending cleanup without
starting it, a task that is done with the body starts it at its next move, and every
counter is the inherited one plus the cleanups that run. -/
theorem cleanup_exactly_once {image : ProgramImage V E} {values : Values S V E}
    {x₀ x : Execution V E} {history : List (Record S V E)} (h₀ : Started image x₀)
    (h : Run values x₀ history x) : (∃ g, Ledger values history g ∧ g.Sound ∧
      (∀ k, (g.pending k).map Prod.snd = finallies (x.stack k)) ∧
      (∀ k, (x.task k).state.isDone = true → g.pending k = []) ∧
      ((x.task 0).state.isDone = true → ∀ n < g.next, g.discharged.count n = 1)) ∧
    (∀ r ∈ history, ∀ used node k body cleanup input, r.action = .turn used →
      (r.before.exec.task k).state = .ready → (r.before.exec.task k).input = some input →
      used.node (r.before.exec.task k).pc = .ok node → node.kind = .finally_ body cleanup →
      (Opens r.action r.before.exec (r.after values).exec k cleanup input ∧
        ((r.after values).exec.task k).pc = body ∧
        ((r.after values).exec.task k).input = some input) ∨
      (((r.after values).exec.task k).state = .ready ∧
        ((r.after values).exec.task k).pc = (r.before.exec.task k).pc ∧
        (r.after values).exec.stack k = r.before.exec.stack k) ∨
      (((r.after values).exec.task k).cancelled = true ∧ (r.before.exec.task k).cleaning = 0) ∨
      ((r.after values).exec.task k).state ≠ .ready ∧
        ((∃ e, r.report values = .turn (.faulted e)) ∨
          ((r.after values).exec.task 0).state.terminalResult ≠ none)) ∧
    (∀ r ∈ history, ∀ k cleanup input rest,
      r.before.exec.stack k = .finally_ cleanup input :: rest →
      (∃ above, (r.after values).exec.stack k = above ++ .finally_ cleanup input :: rest) ∨
        Cleans r.before.exec (r.after values).exec k cleanup input) ∧
    (∀ r ∈ history, ∀ k cleanup input rest o, (r.before.exec.task k).state = .returning o →
      r.before.exec.stack k = .finally_ cleanup input :: rest →
      Cleans r.before.exec (r.after values).exec k cleanup input ∨
        (r.after values).exec.stack k = r.before.exec.stack k ∧
          ((∃ o', ((r.after values).exec.task k).state = .returning o') ∨
            ((r.after values).exec.task 0).state.terminalResult ≠ none)) ∧
    (∀ k, (x.task k).state.isFree = false →
      (x.task k).cleaning = inherited values history k + cleanings (x.stack k)) := by
  have hf₀ := Forest.started h₀
  have hf := h.forest hf₀
  refine ⟨?_, ?_, ?_, ?_, ?_⟩
  · obtain ⟨g, hledger, hsound, hpending⟩ := Ledger.of_run hf₀ (stack_started h₀) h
    have hdone : ∀ k, x.stack k = [] → g.pending k = [] := by
      intro k hs
      have hk := hpending k
      rw [hs] at hk
      exact map_eq_nil_iff.mp hk
    refine ⟨g, hledger, hsound, hpending, fun k hk => ?_, fun hroot n hn => ?_⟩
    · obtain ⟨o, ho⟩ := State.done_of_isDone hk
      exact hdone k (hf.closed k o ho)
    · refine hsound.count_discharged (fun k => hdone k ?_) hn
      obtain ⟨o, ho⟩ := State.done_of_isDone hroot
      by_cases hk : k = 0
      · rw [hk]
        exact hf.closed 0 o ho
      · exact (hf.fresh k (hf.alone (by rw [ho]; rfl) hk)).2
  · intro r hr used node k body cleanup input ha hst hin hn hk
    obtain ⟨older, holder⟩ := h.of_mem hr
    have hforest := holder.forest hf₀
    have hacts := r.acts values hforest
    rw [ha] at hacts ⊢
    rcases hacts.at_finally hforest hst hin hn hk with ⟨hs, hre, hpc, hi, hsh⟩ | hrest
    · exact .inl ⟨.of_frames hn (by rw [hpc, hk]) hst hin hsh hre hs, hpc, hi⟩
    · exact .inr hrest
  · intro r hr k cleanup input rest hs
    obtain ⟨older, holder⟩ := h.of_mem hr
    have hforest := holder.forest hf₀
    exact (Stacked.acts hforest (r.acts values hforest)).finally_stays hs
  · intro r hr k cleanup input rest o hst hs
    obtain ⟨older, holder⟩ := h.of_mem hr
    have hforest := holder.forest hf₀
    exact (r.acts values hforest).enters_cleanup hforest hst hs
  · intro k hk
    rw [inherited_eq hf₀ (links_started h₀) h hk]
    exact h.counts hf₀ (Counts.started h₀) k

def releases : ProgramImage Int Fault where
  nodes := [{ kind := .finally_ 1 2 }, { kind := .fail .type }, { kind := .input }]

def startsRelease (r : Record Unit Int Fault) : Bool :=
  match r.action with
  | .turn _ =>
    let t := r.before.exec.task 0
    let t' := (r.after numbers).exec.task 0
    t.state = .ready && t.pc = 0 && t.input = some 7 &&
      t'.state = .ready && t'.pc = 1 && t'.cancelled = false
  | _ => false

theorem opens_of_startsRelease {r : Record Unit Int Fault} (hu : r.action.Uses releases)
    (h : startsRelease r = true) :
    Opens r.action r.before.exec (r.after numbers).exec 0 2 7 := by
  unfold startsRelease at h
  split at h
  · next image ha =>
    rw [ha] at hu ⊢
    simp only [Bool.and_eq_true, decide_eq_true_eq] at h
    obtain ⟨⟨⟨⟨⟨hst, hpc⟩, hin⟩, hst'⟩, hpc'⟩, hc⟩ := h
    refine ⟨⟨releases, { kind := .finally_ 1 2 }, by rw [hu], by rw [hpc]; rfl, ?_⟩, hst, hin,
      .inl hc, .inl ?_, hst'⟩
    · rw [hpc']
    · rw [hpc, hpc']
      decide
  · cases h

theorem cleanup_exactly_once_releases : ∃ (x₀ x : Execution Int Fault) (history : _),
    Started releases x₀ ∧ Run numbers x₀ history x ∧ (x.task 0).state.isDone = true ∧
    history.length = 7 ∧
    (∃ r ∈ history, Opens r.action r.before.exec (r.after numbers).exec 0 2 7) ∧
    ∃ g, Ledger numbers history g ∧ 0 < g.next ∧ ∀ n < g.next, g.discharged.count n = 1 := by
  obtain ⟨x₀, history, m, h₀, h, huse, hm⟩ := run_of_trial releases 1 2 (List.replicate 7 .turn)
    (fun history m => (m.exec.task 0).state.isDone && history.length == 7 &&
      history.any startsRelease) (by decide +kernel)
  simp only [Bool.and_eq_true, beq_iff_eq, any_eq_true] at hm
  obtain ⟨⟨hdone, hlen⟩, r, hr, hstart⟩ := hm
  have hopen := opens_of_startsRelease (huse r hr) hstart
  obtain ⟨⟨g, hg, -, -, -, hcount⟩, -⟩ := cleanup_exactly_once h₀ h
  exact ⟨x₀, m.exec, history, h₀, h, hdone, hlen, ⟨r, hr, hopen⟩, g, hg, hg.next_pos hr hopen,
    hcount hdone⟩

end Xolotl.Core
