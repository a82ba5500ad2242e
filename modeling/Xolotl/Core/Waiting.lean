import Xolotl.Core.Tickets
import Xolotl.Core.Resume

/-! An execution that reports waiting has an outstanding request. Its tasks form a
tree under slot 0, and below every task that has no result yet some task can move
or waits for the host. -/

namespace Xolotl.Core

open Execution

variable {S V E : Type}

/-! ## The tree of tasks -/

namespace Execution
namespace Forest

variable {x : Execution V E} (hf : Forest x)
include hf

theorem walk_length (k : Nat) : Walk.walk x.links k x.tasks.length = none := by
  by_cases hk : (x.task k).state.isFree = true
  · have hn : x.links k = none := by rw [links, (hf.fresh k hk).1]
    refine Walk.walk_none_of_le (m := 1) ?_ hf.lt_length_root
    rw [Walk.walk_succ_eq, hn]
    rfl
  · have hin : ∀ b, Walk.Visits x.links k b → b ∈ Finset.range x.tasks.length := by
      intro b hb
      refine Finset.mem_range.mpr (hb.closed (p := (· < x.tasks.length))
        (fun a b _ hab => hf.lt_length hab) ?_)
      exact lt_length_of_not_free (by simpa using hk)
    by_contra hw
    have hlt := Walk.walk_length_lt (hf.ends k) hin hw
    rw [Finset.card_range] at hlt
    exact lt_irrefl _ hlt

theorem children_iff {p : Nat} {j : JoinState} (hst : (x.task p).state.join = some j) (c : Nat) :
    (x.task c).state.isFree = false ∧ x.links c = some p ↔ c = j.left ∨ c = j.right := by
  constructor
  · rintro ⟨-, hc⟩
    obtain ⟨j', hj', hcj⟩ := hf.parent_join hc
    rw [hst] at hj'
    cases hj'
    exact hcj
  · intro hc
    exact (hf.joined p j hst).2 c hc

theorem not_below_done {c : Nat} {o : Except E V}
    (hst : (x.task c).state = .done o) (k : Nat) : ¬ x.Below c k := by
  have hn : ∀ q, x.links q ≠ some c := by
    intro q hq
    obtain ⟨j, hj, -⟩ := hf.parent_join hq
    rw [hst] at hj
    cases hj
  rintro ⟨p, hp, hv⟩
  rcases hv.eq_or_step with rfl | ⟨q, hq⟩
  · exact hn k hp
  · exact hn q hq

/-! ## Somebody can move, or waits -/

theorem waits_below (hp : ∀ i < x.tasks.length, x.passes i = true) {k n d : Nat}
    (hd : x.tasks.length ≤ n + d) (hw : Walk.walk x.links k n = some 0)
    (hli : (x.task k).state.isFree = false) (hdo : (x.task k).state.isDone = false) :
    ∃ w ticket node, (x.task w).state = .waiting ticket node := by
  -- by induction on the slots that a longer climb could still use
  induction d generalizing k n with
  | zero =>
    have hn := Walk.walk_none_of_le (hf.walk_length k) hd
    rw [Nat.add_zero, hw] at hn
    cases hn
  | succ d ih =>
    have hpa := hp k (lt_length_of_not_free hli)
    cases hst : (x.task k).state with
    | waiting ticket node => exact ⟨k, ticket, node, hst⟩
    | joining j =>
      obtain ⟨-, hch⟩ := hf.joined k j (by rw [hst]; rfl)
      -- one of the children is not finished
      obtain ⟨c, hc, hcd⟩ : ∃ c, (c = j.left ∨ c = j.right) ∧ (x.task c).state.isDone = false := by
        by_contra ha
        simp only [not_exists, not_and] at ha
        have hl := ha j.left (Or.inl rfl)
        have hr := ha j.right (Or.inr rfl)
        rw [passes] at hpa
        simp only [ready, hst, hl, hr] at hpa
        cases hpa
      obtain ⟨hcl, hlk⟩ := hch c hc
      refine ih (k := c) (n := n + 1) (by omega) ?_ hcl hcd
      rw [Walk.walk_succ_eq, hlk]
      exact hw
    | free => rw [hst] at hli; cases hli
    | done o => rw [hst] at hdo; cases hdo
    | ready | returning o | halted o j => rw [passes, hst] at hpa; cases hpa

theorem exists_waiting (hr : (x.task 0).state.terminalResult = none)
    (hp : ∀ i < x.tasks.length, x.passes i = true) :
    ∃ w ticket node, (x.task w).state = .waiting ticket node ∧ x.isPending w ticket = true := by
  have hd : (x.task 0).state.isDone = false := by
    cases hst : (x.task 0).state with
    | done o => rw [hst] at hr; cases hr
    | _ => rfl
  obtain ⟨w, ticket, node, hst⟩ :=
    hf.waits_below hp (Nat.le_add_left _ 0) Walk.walk_zero hf.root_live hd
  refine ⟨w, ticket, node, hst, ?_⟩
  rw [isPending, hr, hst]
  simp

end Forest
end Execution

/-! ## Whole lives -/

def Action.Among (P : ProgramImage V E → Prop) : Action V E → Prop
  | .turn image => P image
  | .complete image _ _ _ => P image
  | .cancel => True

/-- The states of an execution that is created, called, suspended and resumed with
images of `P`. -/
inductive Reachable (P : ProgramImage V E → Prop) (values : Values S V E) : Execution V E → Prop
  | new {image : ProgramImage V E} {x : Execution V E} (hP : P image) (h : Started image x) :
      Reachable P values x
  | act (r : Record S V E) (h : Reachable P values r.before.exec)
      (hok : r.action.Admitted r.before.exec) (hP : r.action.Among P) :
      Reachable P values (r.after values).exec
  | resume {image : ProgramImage V E} {x x' : Execution V E} {suspended : SuspendedExecution}
      {store : Storage V E} {holds : store.Holds suspended.framePool} (hP : P image)
      (h : Reachable P values x) (hs : suspended = { x.suspend with limits := suspended.limits })
      (hg : Grown x suspended.limits store)
      (hx : resume image suspended store holds = .ok x') : Reachable P values x'

namespace Reachable

variable {P : ProgramImage V E → Prop} {values : Values S V E} {x : Execution V E}

theorem forest (h : Reachable P values x) : Forest x := by
  induction h with
  | new hP h => exact .started h
  | act r h hok hP ih => exact ih.acts (r.acts values ih)
  | resume hP h hs hg hx ih =>
    obtain rfl := resume_ok hx
    exact hg.forest ih _ rfl

theorem run {x₀ : Execution V E} {history : List (Record S V E)} (h₀ : Reachable P values x₀)
    (h : Run values x₀ history x) (hP : ∀ r ∈ history, r.action.Among P) :
    Reachable P values x := by
  induction h with
  | nil => exact h₀
  | cons r hru he hok ih =>
    subst he
    exact .act r (ih fun r hr => hP r (List.mem_cons_of_mem _ hr)) hok (hP r List.mem_cons_self)

theorem waiting_node (h : Reachable P values x) {k ticket node : Nat}
    (hw : (x.task k).state = .waiting ticket node) :
    ∃ image instruction, P image ∧ image.id = x.imageId ∧ image.node node = .ok instruction := by
  induction h with
  | new hP h =>
    obtain ⟨tasks, frames, bindings, limits, input, context, h⟩ := h
    rw [task_new h] at hw
    split at hw <;> cases hw
  | act r h hok hP ih =>
    have hac := r.acts values h.forest
    have hid := (Fixed.acts hac).imageId
    rcases hac.waits h.forest hw with hold | ⟨q, used, instruction, ha, -, -, hn⟩
    · obtain ⟨image, instruction, hp, hi, hn⟩ := ih hold
      exact ⟨image, instruction, hp, hi.trans hid.symm, hn⟩
    · rw [ha] at hok hP
      exact ⟨used, instruction, hP, hok.trans hid.symm, hn⟩
  | resume hP h hs hg hx ih =>
    obtain rfl := resume_ok hx
    rw [hg.task_eq] at hw
    obtain ⟨image, instruction, hp, hid, hn⟩ := ih hw
    exact ⟨image, instruction, hp, hid.trans (congrArg SuspendedExecution.imageId hs).symm, hn⟩

/-- A finished execution holds nothing but its result: no other task, and no frame. -/
theorem finished_holds_nothing (h : Reachable P values x) {outcome : Except E V}
    (hd : (x.task 0).state = .done outcome) : (∀ k ≠ 0, x.task k = {}) ∧ ∀ k, x.stack k = [] := by
  have hf := h.forest
  have hn : ∀ k ≠ 0, x.task k = {} ∧ x.stack k = [] := by
    intro k hk
    refine hf.fresh k ?_
    by_contra hl
    -- A live task climbs to the root, which has no task below it.
    rcases Walk.visits_iff.mp (hf.visits_root (by simpa using hl)) with heq | hb
    · exact hk heq
    · exact hf.not_below_done hd k hb
  refine ⟨fun k hk => (hn k hk).1, fun k => ?_⟩
  by_cases hk : k = 0
  · exact hk ▸ hf.closed 0 outcome hd
  · exact (hn k hk).2

def forksInBody : ProgramImage Int Fault where
  nodes := [{ kind := .finally_ 1 2 }, { kind := .fork 3 4 .all }, { kind := .input },
    { kind := .then_ 4 2 }, { kind := .literal 2 }]

theorem finished_holds_nothing_forked : ∃ (x₀ : Execution Int Fault)
    (history : List (Record Unit Int Fault)) (m : Machine Unit Int Fault),
    Started forksInBody x₀ ∧ Run numbers x₀ history m.exec ∧
    (∃ r ∈ history, (r.before.exec.task 1).state.isFree = false ∧
      (r.before.exec.task 2).state.isFree = false ∧ (r.before.exec.stack 0).length = 2 ∧
      (r.before.exec.stack 1).length = 2) ∧
    (m.exec.task 0).state = .done (.ok 202) ∧ (∀ k ≠ 0, m.exec.task k = {}) ∧
    ∀ k, m.exec.stack k = [] := by
  obtain ⟨x₀, history, m, h₀, h, -, hm⟩ := run_of_trial forksInBody 3 8 (List.replicate 16 .turn)
    (fun history m => decide ((m.exec.task 0).state = .done (.ok 202)) && history.any fun r =>
      !(r.before.exec.task 1).state.isFree && !(r.before.exec.task 2).state.isFree &&
        (r.before.exec.stack 0).length == 2 && (r.before.exec.stack 1).length == 2)
    (by decide +kernel)
  simp only [Bool.and_eq_true, decide_eq_true_eq, List.any_eq_true, Bool.not_eq_true',
    beq_iff_eq] at hm
  obtain ⟨hdone, r, hr, ⟨⟨hleft, hright⟩, hroot⟩, hstack⟩ := hm
  have hreach : Reachable (fun _ => True) numbers m.exec :=
    .run (.new trivial h₀) h fun r _ => by cases r.action <;> trivial
  exact ⟨x₀, history, m, h₀, h, ⟨r, hr, hleft, hright, hroot, hstack⟩, hdone,
    finished_holds_nothing hreach hdone⟩

end Reachable

namespace Machine

open TaskCell

theorem complete_accepts {image : ProgramImage V E} {values : Values S V E} {m : Machine S V E}
    {k ticket node : Nat} {instruction : Node V E} (hx : Forest m.exec)
    (hid : image.id = m.exec.imageId) (hst : (m.exec.task k).state = .waiting ticket node)
    (hp : m.exec.isPending k ticket = true) (hn : image.node node = .ok instruction)
    (result : Except E V) : (complete image values k ticket (.complete result) m).1 = .ok () := by
  rcases complete_cases image values m k ticket (.complete result) with
    ⟨hid', -⟩ | ⟨-, hno, -⟩ | ⟨node', -, -, hst', hc⟩
  · exact absurd hid hid'
  · rw [hp] at hno
    cases hno
  · rw [hst] at hst'
    cases hst'
    rw [hc]
    have hl : (m.exec.task k).state.isFree = false := by rw [hst]; rfl
    have hi := lt_length_of_not_free hl
    obtain ⟨v, hv⟩ := hx.input k hl
    have ha := (agrees_deliver image values hi node (.complete result) _ _ (views_view m hi)).1
    rw [Local.run_deliver_complete image values _ hv, Local.run_finish, hn] at ha
    exact ha

end Machine

theorem exists_waiting_of_report {values : Values S V E} {x₀ x : Execution V E} {r : Record S V E}
    {history : List (Record S V E)} (h : Run values x₀ (r :: history) x) (h₀ : x₀.Forest)
    (hr : r.report values = .turn .waiting) :
    ∃ w ticket node, (x.task w).state = .waiting ticket node ∧ x.isPending w ticket = true := by
  cases h with
  | cons _ hru he hok =>
    subst he
    have hf := hru.forest h₀
    have ha := r.acts values hf
    rw [hr] at ha
    generalize (r.after values).exec = x' at ha
    generalize r.action = a at ha
    cases ha with
    | turn ht =>
      cases ht with
      | waiting hro hp =>
        refine hf.quota.exists_waiting ?_ fun i hi => hp i ?_
        · rw [state_quota]
          exact hro
        · rwa [length_quota] at hi
      | moved hro hs hz hm => cases hm

/-- Whenever `advance` answers that it waits, some request is outstanding whose result
would be accepted; and the tasks form a tree under slot 0, in which a joining task has
just the two children it records. -/
theorem waiting_has_request {P : ProgramImage V E → Prop} {values : Values S V E}
    {x : Execution V E} (h : Reachable P values x) :
    (∀ (image : ProgramImage V E) (fuel : Nat) (m : Machine S V E), P image → m.exec = x →
      (Machine.advance image values fuel m).1 = .waiting →
      ∃ k ticket node, ((Machine.advance image values fuel m).2.exec.task k).state =
          .waiting ticket node ∧
        (Machine.advance image values fuel m).2.exec.isPending k ticket = true ∧
        ∃ used, P used ∧ ∀ (m' : Machine S V E) (result : Except E V),
          m'.exec = (Machine.advance image values fuel m).2.exec →
          (Machine.complete used values k ticket (.complete result) m').1 = .ok ()) ∧
    (∀ k, (x.task k).state.isFree = false → Walk.Visits x.links k 0) ∧
    (∀ k, Walk.walk x.links k x.tasks.length = none) ∧
    (∀ root k, x.descends root x.tasks.length (x.task k).parent = true ↔ x.Below root k) ∧
    (∀ p j, (x.task p).state = .joining j → j.left ≠ j.right ∧ ∀ c,
      (x.task c).state.isFree = false ∧ x.links c = some p ↔ c = j.left ∨ c = j.right) ∧
    ∀ p j a b, (x.task p).state = .joining j → (x.task j.left).state = .done a →
      (x.task j.right).state = .done b → ∀ k, ¬ x.Below j.left k ∧ ¬ x.Below j.right k := by
  have hf := h.forest
  refine ⟨?_, fun k hk => hf.visits_root hk, hf.walk_length, hf.descends_iff, ?_, ?_⟩
  · rintro image fuel m hP rfl hwaiting
    have hid : image.id = m.exec.imageId := by
      by_contra hid
      obtain ⟨result, hdone⟩ := Machine.advance_mismatch values hid fuel
      rw [hdone] at hwaiting
      cases hwaiting
    have hstart : Run values m.exec [] m.exec := .nil
    obtain ⟨turns, hrun, hall, -, hlast⟩ := hstart.advanceLoop hf hid fuel
    rw [Machine.advance_eq_advanceLoop values hid] at hwaiting ⊢
    rw [hwaiting] at hlast
    generalize (Machine.advanceLoop image values fuel m).2 = m' at hrun
    obtain ⟨r, rest, t, rfl, ht, hanswer⟩ := hlast.resolve_left nofun
    have hreach : Reachable P values m'.exec := by
      refine h.run hrun fun r hr => ?_
      rw [List.append_nil] at hr
      rw [hall r hr]
      exact hP
    obtain rfl : t = .waiting := by cases t <;> first | rfl | cases hanswer
    obtain ⟨w, ticket, node, hst, hpending⟩ := exists_waiting_of_report hrun hf ht
    obtain ⟨used, instruction, hused, hid', hn⟩ := hreach.waiting_node hst
    refine ⟨w, ticket, node, hst, hpending, used, hused, fun m'' result heq => ?_⟩
    rw [← heq] at hst hpending hid' hreach
    exact Machine.complete_accepts hreach.forest hid' hst hpending hn result
  · intro p j hst
    have hjoin : (x.task p).state.join = some j := by rw [hst]; rfl
    exact ⟨(hf.joined p j hjoin).1, hf.children_iff hjoin⟩
  · intro p j a b hst ha hb k
    exact ⟨hf.not_below_done ha k, hf.not_below_done hb k⟩

theorem waiting_has_request_asked : ∃ m : Machine Unit Int Fault,
    Reachable (· = asksTwice) numbers m.exec ∧
    (Machine.advance asksTwice numbers 3 m).1 = .waiting ∧
    ∃ k ticket node, ((Machine.advance asksTwice numbers 3 m).2.exec.task k).state =
        .waiting ticket node ∧ ∃ used, used = asksTwice ∧ ∀ m' result,
      m'.exec = (Machine.advance asksTwice numbers 3 m).2.exec →
      (Machine.complete used numbers k ticket (.complete result) m').1 = .ok () := by
  obtain ⟨x₀, history, m, hstart, hrun, huse, h⟩ := run_of_trial asksTwice 1 4 [.turn]
    (fun _ m => match (Machine.advance asksTwice numbers 3 m).1 with
      | .waiting => true
      | _ => false) (by decide +kernel)
  have hwaiting : (Machine.advance asksTwice numbers 3 m).1 = .waiting := by
    split at h
    · assumption
    · cases h
  have hreach : Reachable (· = asksTwice) numbers m.exec := by
    have hnew : Reachable (· = asksTwice) numbers x₀ := .new rfl hstart
    refine hnew.run hrun fun r hr => ?_
    have huses := huse r hr
    cases ha : r.action with
    | turn image | complete image i ticket event => rw [ha] at huses; exact huses
    | cancel => trivial
  obtain ⟨k, ticket, node, hst, -, used, hused, haccepts⟩ :=
    (waiting_has_request hreach).1 asksTwice 3 m rfl rfl hwaiting
  exact ⟨m, hreach, hwaiting, k, ticket, node, hst, used, hused, haccepts⟩

end Xolotl.Core
