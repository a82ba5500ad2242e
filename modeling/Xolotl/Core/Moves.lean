import Xolotl.Core.LocalSteps

/-! The moves of a task, as relations: which frame or instruction leads where,
with which frames pushed. Values are only constrained where control depends on
them. -/

namespace Xolotl.Core

open List

variable {S V E : Type}

variable (pc : Nat) (input : V) in
/-- `f'` is what frames an instruction pushes, top first, and where it goes. -/
inductive Enters : NodeKind V E → List (FrameKind V E) → Nat → Prop
  | then_ {first next : Nat} : Enters (.then_ first next) [.then_ next, .finish pc] first
  | catch_ {body recover : Nat} : Enters (.catch_ body recover) [.catch_ recover, .finish pc] body
  | finally_ {body cleanup : Nat} :
      Enters (.finally_ body cleanup) [.finally_ cleanup input, .finish pc] body
  | if_ {yes no : Nat} (test : Bool) : Enters (.if_ yes no) [.finish pc] (if test then yes else no)
  | call {entry : Nat} : Enters (.call entry) [.finish pc] entry
  | branch {condition yes no : Nat} :
      Enters (.branch condition yes no) [.choose yes no input, .finish pc] condition
  | let_ {slot value body : Nat} :
      Enters (.let_ slot value body) [.bind slot body, .finish pc] value
  | while_ {condition body max : Nat} :
      Enters (.while_ condition body max) [.condition condition body max input, .finish pc]
        condition

def NodeKind.isLeaf : NodeKind V E → Bool
  | .literal _ | .input | .load _ | .fail _ | .if_ _ _ => true
  | _ => false

def NodeKind.requested : NodeKind V E → Option Nat
  | .request index => some index
  | .scope index _ => some index
  | _ => none

def FrameKind.passes : FrameKind V E → Bool
  | .then_ _ | .catch_ _ | .choose _ _ _ | .bind _ _ | .condition _ _ _ _ | .iteration _ _ _ => true
  | _ => false

variable (image : ProgramImage V E) (values : Values S V E) (t : Task V E) (outcome : Except E V) in
inductive Resumes : FrameKind V E → Task V E → List (FrameKind V E) → Prop
  | finish {node : Nat} {instruction : Node V E} (s : S)
      (hn : image.node node = .ok instruction) :
      Resumes (.finish node)
        (t.finished instruction.next (values.coloredResult outcome t.input s).1) []
  | continuation {node entry : Nat} {instruction : Node V E} (s : S)
      (hn : image.node node = .ok instruction) :
      Resumes (.continuation node entry)
        (t.finished instruction.next (values.coloredResult outcome t.input s).1) []
  | then_ {next : Nat} {v : V} (hr : outcome = .ok v) : Resumes (.then_ next) (t.started next v) []
  | catch_ {recover : Nat} {e : E} {v : V} (hr : outcome = .error e)
      (hc : t.cancelled = false ∨ 0 < t.cleaning) :
      Resumes (.catch_ recover) (t.started recover v) []
  | finally_ {cleanup : Nat} {input : V} : Resumes (.finally_ cleanup input)
        ({ t with cleaning := t.cleaning + 1 }.started cleanup input) [.cleaned outcome]
  | cleaned {original : Except E V} (control : V) (s : S) : Resumes (.cleaned original)
        ({ t with cleaning := t.cleaning - 1 }.returned
          (values.influenceResult (Local.cleanedResult original outcome) control s).1) []
  | context {context : Nat} : Resumes (.context context) ({ t with context }.returned outcome) []
  | choose {yes no : Nat} {input test v : V} (truthy : Bool) (hr : outcome = .ok test) :
      Resumes (.choose yes no input)
        (t.started (if truthy then yes else no) v) []
  | bind {slot body : Nat} {v : V} (previous : Option V) (hr : outcome = .ok v) :
      Resumes (.bind slot body) (t.started body v) [.unbind slot previous]
  | unbind {slot : Nat} {previous : Option V} :
      Resumes (.unbind slot previous) (t.returned outcome) []
  | condition {condition body left : Nat} {value test v : V} (hr : outcome = .ok test)
      (hl : 0 < left) :
      Resumes (.condition condition body left value) (t.started body v)
        [.iteration condition body (left - 1)]
  | iteration {condition body left : Nat} {v : V} (hr : outcome = .ok v) :
      Resumes (.iteration condition body left) (t.started condition v)
        [.condition condition body left v]
  | passed {frame : FrameKind V E} {outcome' : Except E V} (hf : frame.passes = true)
      (hr : ∀ e, outcome = .error e → outcome' = .error e) :
      Resumes frame (t.returned outcome') []

inductive Dispatches (image : ProgramImage V E) (t : Task V E) (node : Node V E) (index : Nat)
    (input : V) : Signal V → Task V E → List (FrameKind V E) → Prop
  | leaf {result : Except E V} (hk : node.kind.isLeaf = true) :
      Dispatches image t node index input .idle (t.finished node.next result) []
  | enter {frames : List (FrameKind V E)} {entry : Nat}
      (he : Enters t.pc input node.kind frames entry) :
      Dispatches image t node index input .idle (t.started entry input) frames
  | request {r : Request V} (hk : node.kind.requested = some r.index) (ht : r.task = index)
      (hi : r.input = input) (hx : r.context = t.context) (hp : r.position = node.position)
      (hc : r.cleanup = decide (0 < t.cleaning)) :
      Dispatches image t node index input (.request r)
        { t with state := .waiting r.ticket t.pc } []
  | fork {left right : Nat} {join : Join} (hk : node.kind = .fork left right join) :
      Dispatches image t node index input (.fork left right join t.pc input) t []

inductive Delivers (image : ProgramImage V E) (t : Task V E) (node : Nat) :
    HostEvent V E → Task V E → List (FrameKind V E) → Prop
  | complete {instruction : Node V E} {result result' : Except E V}
      (hn : image.node node = .ok instruction) :
      Delivers image t node (.complete result) (t.finished instruction.next result') []
  | enter {instruction : Node V E} {index body context : Nat} {input : V}
      (hn : image.node node = .ok instruction) (hk : instruction.kind = .scope index body) :
      Delivers image t node (.enter context) ({ t with context }.started body input)
        [.context t.context, .finish node]
  | continue_ {entry : Nat} {input input' : V} :
      Delivers image t node (.continue_ entry input) (t.started entry input')
        [.continuation node entry]

structure Task.Continues (t t' : Task V E) : Prop where
  running : t'.state.isRunning = true
  parent : t'.parent = t.parent
  cancelled : t'.cancelled = t.cancelled
  input : t.input ≠ none → t'.input ≠ none

namespace Task

theorem Continues.of_same {t t₁ t' : Task V E} (h : t₁.Continues t') (hp : t₁.parent = t.parent)
    (hc : t₁.cancelled = t.cancelled) (hi : t₁.input ≠ none) : t.Continues t' :=
  ⟨h.running, h.parent.trans hp, h.cancelled.trans hc, fun _ => h.input hi⟩

theorem continues_started (t : Task V E) (pc : Nat) (input : V) :
    t.Continues (t.started pc input) :=
  ⟨rfl, rfl, rfl, fun _ => Option.some_ne_none _⟩

theorem continues_returned (t : Task V E) (outcome : Except E V) :
    t.Continues (t.returned outcome) :=
  ⟨rfl, rfl, rfl, id⟩

theorem continues_finished (t : Task V E) (next : Option Nat) (result : Except E V) :
    t.Continues (t.finished next result) := by
  cases result with
  | error e => exact t.continues_returned _
  | ok value =>
    cases next with
    | none => exact t.continues_returned _
    | some pc => exact t.continues_started pc value

end Task

variable {t t' : Task V E} {pushed : List (FrameKind V E)}

theorem Resumes.continues {image : ProgramImage V E} {values : Values S V E}
    {outcome : Except E V} {frame : FrameKind V E}
    (h : Resumes image values t outcome frame t' pushed) : t.Continues t' := by
  cases h with
  | finish | continuation => exact t.continues_finished _ _
  | finally_ | cleaned | context => exact ⟨rfl, rfl, rfl, by simp [Task.started, Task.returned]⟩
  | then_ | catch_ | choose | bind | condition | iteration => exact t.continues_started _ _
  | unbind | passed => exact t.continues_returned _

theorem Dispatches.continues {image : ProgramImage V E} {node : Node V E}
    {index : Nat} {input : V} {signal : Signal V}
    (h : Dispatches image t node index input signal t' pushed)
    (hs : ∀ left right join pc input, signal ≠ .fork left right join pc input) :
    t.Continues t' := by
  cases h with
  | leaf => exact t.continues_finished _ _
  | enter => exact t.continues_started _ _
  | request => exact ⟨rfl, rfl, rfl, id⟩
  | fork => exact absurd rfl (hs _ _ _ _ _)

theorem Delivers.continues {image : ProgramImage V E} {node : Nat} {event : HostEvent V E}
    (h : Delivers image t node event t' pushed) : t.Continues t' := by
  cases h with
  | complete => exact t.continues_finished _ _
  | enter => exact ⟨rfl, rfl, rfl, by simp [Task.started]⟩
  | continue_ => exact t.continues_started _ _

namespace Local

structure Kept (y y' : Local S V E) : Prop where
  index : y'.index = y.index
  room : y'.room = y.room
  bindingsPerTask : y'.bindingsPerTask = y.bindingsPerTask

open TaskCell Simulation

variable (image : ProgramImage V E) (values : Values S V E) (y : Local S V E)

def Resumed (frame : FrameKind V E) (outcome : Except E V)
    (result : Except Fault Unit × Local S V E) : Prop :=
  Kept y result.2 ∧ result.2.ticket = y.ticket ∧
  match result.1 with
  | .ok () => ∃ pushed, Resumes image values y.task outcome frame result.2.task pushed ∧
      result.2.stack = pushed ++ y.stack
  | .error e => result.2.task = y.task ∧ result.2.stack = y.stack ∧ e ≠ .tasks ∧
      (∀ o, frame ≠ .cleaned o) ∧
      (e = .frames ∨ (∃ cleanup input, frame = .finally_ cleanup input) →
        y.room < y.stack.length + 1)

variable {image values y} in
theorem Resumed.ok {frame : FrameKind V E} {outcome : Except E V} {y' : Local S V E}
    {pushed : List (FrameKind V E)} (hk : Kept y y') (ht : y'.ticket = y.ticket)
    (hr : Resumes image values y.task outcome frame y'.task pushed)
    (hs : y'.stack = pushed ++ y.stack) : Resumed image values y frame outcome (.ok (), y') :=
  ⟨hk, ht, pushed, hr, hs⟩

variable {image values y} in
theorem Resumed.failed {frame : FrameKind V E} (e : E) (hf : frame.passes = true) :
    Resumed image values y frame (.error e)
      (.ok (), { y with task := y.task.returned (.error e) }) := by
  refine .ok ⟨rfl, rfl, rfl⟩ rfl (.passed hf ?_) rfl
  rintro _ ⟨⟩
  rfl

variable {image values y} in
theorem Resumed.full {frame : FrameKind V E} {outcome : Except E V} {s : S}
    (hf : ∀ o, frame ≠ .cleaned o) (h : ¬ y.stack.length + 1 ≤ y.room) :
    Resumed image values y frame outcome (.error .frames, { y with host := s }) :=
  ⟨⟨rfl, rfl, rfl⟩, rfl, rfl, rfl, nofun, hf, fun _ => not_le.mp h⟩

theorem resumed_finish (node : Nat) (outcome : Except E V) (frame : FrameKind V E)
    (hf : frame = .finish node ∨ ∃ entry, frame = .continuation node entry) :
    Resumed image values y frame outcome ((finish image values node outcome).run y) := by
  rw [run_finish]
  rcases hn : image.node node with e | instruction
  · have he : e = .invalidNode := ProgramImage.node_error hn
    refine ⟨⟨rfl, rfl, rfl⟩, rfl, rfl, rfl, by simp [he], ?_, ?_⟩
    · rcases hf with rfl | ⟨_, rfl⟩ <;> simp
    rintro (rfl | ⟨cleanup, input, rfl⟩)
    · cases he
    · rcases hf with h | ⟨_, h⟩ <;> cases h
  · refine ⟨⟨rfl, rfl, rfl⟩, rfl, [], ?_, rfl⟩
    rcases hf with rfl | ⟨entry, rfl⟩
    · exact .finish _ hn
    · exact .continuation _ hn

theorem resumed (frame : FrameKind V E) (outcome : Except E V) :
    Resumed image values y frame outcome ((resume image values frame outcome).run y) := by
  have hke : Kept y y := ⟨rfl, rfl, rfl⟩
  cases frame with
  | vacant =>
    refine ⟨hke, rfl, rfl, rfl, by simp, by simp, ?_⟩
    rintro (h | ⟨_, _, h⟩) <;> cases h
  | finish node => exact resumed_finish image values y node outcome _ (.inl rfl)
  | continuation node entry =>
    exact resumed_finish image values y node outcome _ (.inr ⟨entry, rfl⟩)
  | then_ next =>
    cases outcome with
    | ok value => exact .ok ⟨rfl, rfl, rfl⟩ rfl (.then_ rfl) rfl
    | error e => exact .failed e rfl
  | catch_ recover =>
    cases outcome with
    | ok value => exact .ok ⟨rfl, rfl, rfl⟩ rfl (.passed rfl nofun) rfl
    | error e =>
      rw [resume, resumeCatch, run_bind_ok (run_getTask _)]
      by_cases hc : y.task.cancelled = false ∨ 0 < y.task.cleaning
      · simp only [if_pos hc]
        rw [run_bind_ask, run_bind_ok (run_influenceInput values _ _ _)]
        exact .ok ⟨rfl, rfl, rfl⟩ rfl (.catch_ rfl hc) rfl
      · simp only [if_neg hc]
        exact .failed e rfl
  | finally_ cleanup input =>
    rw [resume, resumeFinally, run_bind_push]
    split
    · exact .ok ⟨rfl, rfl, rfl⟩ rfl .finally_ rfl
    · next hr => exact .full nofun hr
  | cleaned original =>
    exact .ok ⟨rfl, rfl, rfl⟩ rfl (.cleaned _ _) rfl
  | context context => exact .ok ⟨rfl, rfl, rfl⟩ rfl .context rfl
  | choose yes no input =>
    cases outcome with
    | error e => exact .failed e rfl
    | ok test =>
      rw [resume, resumeChoose, run_bind_ask]
      cases (values.truth test y.host).1 with
      | error e => exact .ok ⟨rfl, rfl, rfl⟩ rfl (.passed rfl nofun) rfl
      | ok truthy => exact .ok ⟨rfl, rfl, rfl⟩ rfl (.choose truthy rfl) rfl
  | bind slot body =>
    cases outcome with
    | error e => exact .failed e rfl
    | ok value =>
      have hli : (limit : Step (Local S V E) Nat).run y = (.ok y.bindingsPerTask, y) := rfl
      rw [resume, resumeBind, run_bind_ok hli]
      by_cases hn : y.bindingsPerTask ≤ slot
      · simp only [if_pos hn]
        refine ⟨hke, rfl, rfl, rfl, nofun, nofun, ?_⟩
        rintro (h | ⟨_, _, h⟩) <;> cases h
      · simp only [if_neg hn]
        rw [run_bind_check]
        split
        · next hr =>
          change Resumed image values y _ _ ((pushFrame (.unbind slot (TaskCell.binding slot y)) >>=
            _ : Step (Local S V E) Unit).run
              { y with bindings := y.bindings.set (y.index * y.bindingsPerTask + slot) none })
          rw [run_bind_push, if_pos hr]
          exact .ok ⟨rfl, rfl, rfl⟩ rfl (.bind _ rfl) rfl
        · next hr => exact .full nofun hr
  | unbind slot previous => exact .ok ⟨rfl, rfl, rfl⟩ rfl .unbind rfl
  | condition condition body left value =>
    cases outcome with
    | error e => exact .failed e rfl
    | ok test =>
      rw [resume, resumeCondition, run_bind_ask]
      rcases (values.truth test y.host).1 with e | truthy
      · exact .ok ⟨rfl, rfl, rfl⟩ rfl (.passed rfl nofun) rfl
      · cases truthy with
        | false => exact .ok ⟨rfl, rfl, rfl⟩ rfl (.passed rfl nofun) rfl
        | true =>
          by_cases hl : 0 < left
          · rw [if_pos hl, run_bind_push]
            split
            · exact .ok ⟨rfl, rfl, rfl⟩ rfl (.condition rfl hl) rfl
            · next hr => exact .full nofun hr
          · rw [if_neg hl]
            exact .ok ⟨rfl, rfl, rfl⟩ rfl (.passed rfl nofun) rfl
  | iteration condition body left =>
    cases outcome with
    | error e => exact .failed e rfl
    | ok value =>
      rw [resume, resumeIteration, run_bind_push]
      split
      · exact .ok ⟨rfl, rfl, rfl⟩ rfl (.iteration rfl) rfl
      · next hr => exact .full nofun hr

/-! ## Dispatching -/

def Dispatched (v : V) (result : Except Fault (Signal V) × Local S V E) : Prop :=
  Kept y result.2 ∧ y.ticket ≤ result.2.ticket ∧
  result.2.stack.length ≤ max y.stack.length y.room ∧ ∃ input : V,
  match result.1 with
  | .ok signal => ∃ node pushed, image.node y.task.pc = .ok node ∧
      Dispatches image { y.task with input := some input } node y.index v signal result.2.task
        pushed ∧ result.2.stack = pushed ++ y.stack ∧
      ∀ r, signal = .request r → r.ticket = y.ticket + 1 ∧ result.2.ticket = r.ticket
  | .error e => result.2.task = { y.task with input := some input } ∧ e ≠ .tasks ∧
      ∃ pushed, result.2.stack = pushed ++ y.stack ∧ (pushed = [] ∨ pushed = [.finish y.task.pc]) ∧
      (e = .frames → ∃ node frames entry, image.node y.task.pc = .ok node ∧
        Enters y.task.pc v node.kind frames entry ∧ y.room < y.stack.length + frames.length)

section Kinds

variable {y₁ : Local S V E} {node : Node V E} {v input : V} (hk : Kept y y₁)
  (ht : y₁.ticket = y.ticket) (htask : y₁.task = { y.task with input := some input })
  (hs : y₁.stack = y.stack)
include hk ht htask hs

variable {image y} in
theorem Dispatched.fault {e : Fault} (he : e ≠ .frames) (he' : e ≠ .tasks) :
    Dispatched image y v (.error e, y₁) := by
  refine ⟨hk, ht.ge, ?_, input, htask, he', [], hs, .inl rfl, fun h => absurd h he⟩
  show y₁.stack.length ≤ _
  rw [hs]
  exact le_max_left _ _

theorem dispatched_finish (hn : image.node y.task.pc = .ok node) (hl : node.kind.isLeaf = true)
    (result : Except E V) :
    Dispatched image y v
      ((do finish image values y.task.pc result; return .idle : Step (Local S V E) _).run y₁) := by
  have hf := run_finish image values y₁ y.task.pc result
  rw [hn] at hf
  rw [run_bind_ok hf]
  refine ⟨⟨hk.index, hk.room, hk.bindingsPerTask⟩, ht.ge, ?_, input, node, [], hn, ?_, hs, nofun⟩
  · show y₁.stack.length ≤ _
    rw [hs]
    exact le_max_left _ _
  · show Dispatches image _ node y.index v .idle (y₁.task.finished _ _) []
    rw [htask]
    exact .leaf hl

theorem dispatched_enter {frames : List (FrameKind V E)} {entry : Nat}
    (hn : image.node y.task.pc = .ok node) (he : Enters y.task.pc v node.kind frames.reverse entry)
    (hf : ∃ rest, frames = .finish y.task.pc :: rest ∧ rest.length ≤ 1) :
    Dispatched image y v ((enter frames entry v : Step (Local S V E) _).run y₁) := by
  obtain ⟨rest, rfl, hre⟩ := hf
  have hr : y₁.room = y.room := hk.room
  by_cases hfi : y₁.stack.length + (FrameKind.finish y.task.pc :: rest).length ≤ y₁.room
  · rw [run_enter_ok y₁ _ _ _ hfi]
    refine ⟨⟨hk.index, hk.room, hk.bindingsPerTask⟩, ht.ge, ?_, input, node, _, hn, ?_,
      by rw [← hs], nofun⟩
    · simp only [length_append, length_reverse]
      omega
    · show Dispatches image _ node y.index v .idle (y₁.task.started _ _) _
      rw [htask]
      exact .enter he
  · rw [run_enter_error y₁ _ _ _ (cons_ne_nil _ _) (not_le.mp hfi)]
    rw [hs, length_cons] at hfi
    refine ⟨⟨hk.index, hk.room, hk.bindingsPerTask⟩, ht.ge, ?_, input, htask, by simp, _,
      by rw [← hs], ?_,
      fun _ => ⟨node, _, entry, hn, he, ?_⟩⟩
    · simp only [length_append, length_reverse, length_take, hs]
      omega
    · rw [hs, hr]
      rcases hsu : y.room - y.stack.length with _ | n
      · exact .inl rfl
      · have hn' : n = 0 := by omega
        rw [hn']
        exact .inr rfl
    · rw [length_reverse, length_cons]
      omega

theorem dispatched_emit {index : Nat} (hn : image.node y.task.pc = .ok node)
    (hre : node.kind.requested = some index) :
    Dispatched image y v ((emit image node y.task.pc index v : Step (Local S V E) _).run y₁) := by
  rw [run_emit]
  split
  · exact .fault hk ht htask hs (by simp) (by simp)
  · split
    · exact .fault hk ht htask hs (by simp) (by simp)
    · refine ⟨⟨hk.index, hk.room, hk.bindingsPerTask⟩, ?_, ?_, input, node, [], hn, ?_, hs, ?_⟩
      · show y.ticket ≤ y₁.ticket + 1
        omega
      · show y₁.stack.length ≤ _
        rw [hs]
        exact le_max_left _ _
      · simp only [htask]
        exact .request hre hk.index rfl rfl rfl rfl
      · intro r hr
        cases hr
        exact ⟨by rw [← ht], rfl⟩

end Kinds

theorem dispatched {v : V} (hv : y.task.input = some v) :
    Dispatched image y v ((dispatch image values).run y) := by
  rw [run_dispatch]
  have hse : y.task = { y.task with input := some v } := by rw [← hv]
  rcases hn : image.node y.task.pc with e | node
  · have he : e = .invalidNode := ProgramImage.node_error hn
    exact .fault ⟨rfl, rfl, rfl⟩ rfl hse rfl (by simp [he]) (by simp [he])
  · rw [hv]
    dsimp only
    generalize hke : retained values node v y.host = kept
    obtain ⟨w, s⟩ := kept
    have hk : ∀ s', Kept y { y with task := { y.task with input := some w }, host := s' } :=
      fun _ => ⟨rfl, rfl, rfl⟩
    have hf : ∀ s' result, node.kind.isLeaf = true → Dispatched image y v
        ((do finish image values y.task.pc result; return .idle : Step (Local S V E) _).run
          { y with task := { y.task with input := some w }, host := s' }) :=
      fun s' result hle => dispatched_finish image values y (hk s') rfl rfl rfl hn hle result
    have hen : ∀ s' frames entry,
        Enters y.task.pc v node.kind (FrameKind.finish y.task.pc :: frames).reverse entry →
        frames.length ≤ 1 → Dispatched image y v
          ((enter (.finish y.task.pc :: frames) entry v : Step (Local S V E) _).run
            { y with task := { y.task with input := some w }, host := s' }) :=
      fun s' frames entry he hln =>
        dispatched_enter image y (hk s') rfl rfl rfl hn he ⟨frames, rfl, hln⟩
    unfold dispatchKind
    rcases hki : node.kind with value | _ | slot | e | index | ⟨first, next⟩ | ⟨body, recover⟩ |
      ⟨body, cleanup⟩ | ⟨yes, no⟩ | ⟨condition, yes, no⟩ | ⟨slot, value, body⟩ |
      ⟨condition, body, max⟩ | ⟨left, right, join⟩ | entry | ⟨index, body⟩ <;> rw [hki] at hen
    · rw [run_bind_ask]
      exact hf _ _ (by rw [hki]; rfl)
    · exact hf _ _ (by rw [hki]; rfl)
    · have hl := run_loadBinding { y with task := { y.task with input := some w }, host := s } slot
      split at hl
      · rw [run_bind_error hl]
        exact .fault (hk s) rfl rfl rfl (by simp) (by simp)
      · split at hl
        · rw [run_bind_ok hl, run_bind_ask]
          exact hf _ _ (by rw [hki]; rfl)
        · rw [run_bind_error hl]
          exact .fault (hk s) rfl rfl rfl (by simp) (by simp)
    · exact hf _ _ (by rw [hki]; rfl)
    · exact dispatched_emit image y (hk s) rfl rfl rfl hn (by rw [hki]; rfl)
    · exact hen _ [.then_ next] _ .then_ (le_refl _)
    · exact hen _ [.catch_ recover] _ .catch_ (le_refl _)
    · exact hen _ [.finally_ cleanup v] _ .finally_ (le_refl _)
    · rw [run_bind_ask]
      cases (values.truth v s).1 with
      | error e => exact hf _ _ (by rw [hki]; rfl)
      | ok test => exact hen _ [] _ (.if_ test) (Nat.zero_le _)
    · exact hen _ [.choose yes no v] _ .branch (le_refl _)
    · exact hen _ [.bind slot body] _ .let_ (le_refl _)
    · exact hen _ [.condition condition body max v] _ .while_ (le_refl _)
    · exact ⟨⟨rfl, rfl, rfl⟩, le_refl _, le_max_left _ _, w, node, [], hn, .fork hki, rfl, nofun⟩
    · exact hen _ [] _ .call (Nat.zero_le _)
    · exact dispatched_emit image y (hk s) rfl rfl rfl hn (by rw [hki]; rfl)

/-! ## Host events -/

def Delivered (node : Nat) (event : HostEvent V E) (result : Except Fault Unit × Local S V E) :
    Prop :=
  Kept y result.2 ∧ result.2.ticket = y.ticket ∧
  result.2.stack.length ≤ max y.stack.length y.room ∧ ∃ input : V,
  match result.1 with
  | .ok () => ∃ pushed, Delivers image { y.task with input := some input } node event
      result.2.task pushed ∧ result.2.stack = pushed ++ y.stack
  | .error e => result.2.task = { y.task with input := some input } ∧ result.2.stack = y.stack ∧
      e ≠ .tasks ∧ (e = .frames → y.room < y.stack.length + 1 ∨ ∃ instruction index body context,
        image.node node = .ok instruction ∧ instruction.kind = .scope index body ∧
        event = .enter context ∧ y.room < y.stack.length + 2)

theorem delivered {v : V} (hv : y.task.input = some v) (node : Nat) (event : HostEvent V E) :
    Delivered image y node event ((deliver image values node event).run y) := by
  have hse : y.task = { y.task with input := some v } := by rw [← hv]
  have hf : ∀ (e : Fault), e ≠ .frames → e ≠ .tasks →
      Delivered image y node event (.error e, y) := fun e he he' =>
    ⟨⟨rfl, rfl, rfl⟩, rfl, le_max_left _ _, v, hse, rfl, he', fun h => absurd h he⟩
  cases event with
  | complete result =>
    rw [run_deliver_complete image values y hv]
    rw [run_finish]
    rcases hn : image.node node with e | instruction
    · have he : e = .invalidNode := ProgramImage.node_error hn
      exact ⟨⟨rfl, rfl, rfl⟩, rfl, le_max_left _ _, _, rfl, rfl, by simp [he], by simp [he]⟩
    · exact ⟨⟨rfl, rfl, rfl⟩, rfl, le_max_left _ _, _, [], .complete hn, rfl⟩
  | enter context =>
    rw [run_deliver_enter]
    rcases hn : image.node node with e | instruction
    · have he : e = .invalidNode := ProgramImage.node_error hn
      exact hf e (by simp [he]) (by simp [he])
    · dsimp only
      rcases hki : instruction.kind with _ | _ | _ | _ | _ | _ | _ | _ | _ | _ | _ | _ | _ | _ |
        ⟨index, body⟩
      case scope =>
        dsimp only
        rw [run_enterScope y hv]
        split
        · next hr =>
          refine ⟨⟨rfl, rfl, rfl⟩, rfl, ?_, v, _, .enter hn hki, rfl⟩
          simp only [length_cons]
          omega
        · next hr =>
          refine ⟨⟨rfl, rfl, rfl⟩, rfl, le_max_left _ _, v, hse, rfl, by simp,
            fun _ => .inr ?_⟩
          exact ⟨instruction, index, body, context, hn, hki, rfl, not_le.mp hr⟩
      all_goals exact hf _ (by simp) (by simp)
  | continue_ entry input =>
    rw [run_deliver_continue image values y fun _ => hv]
    rcases hn : image.node node with e | instruction
    · have he : e = .invalidNode := ProgramImage.node_error hn
      exact hf e (by simp [he]) (by simp [he])
    · dsimp only
      rcases hki : instruction.kind with _ | _ | _ | _ | index | _ | _ | _ | _ | _ | _ | _ | _ |
        _ | _
      case request =>
        rcases he : image.node entry with e | target
        · have he : e = .invalidNode := ProgramImage.node_error he
          exact ⟨⟨rfl, rfl, rfl⟩, rfl, le_max_left _ _, _, rfl, rfl, by simp [he], by simp [he]⟩
        · simp only [TaskCell.push, TaskCell.setTask, TaskCell.setHost]
          by_cases hr : y.stack.length + 1 ≤ y.room
          · rw [if_pos hr]
            exact ⟨⟨rfl, rfl, rfl⟩, rfl, le_max_of_le_right hr, _, _, .continue_, rfl⟩
          · rw [if_neg hr]
            exact ⟨⟨rfl, rfl, rfl⟩, rfl, le_max_left _ _, _, rfl, rfl, by simp,
              fun _ => .inl (not_le.mp hr)⟩
      all_goals exact hf _ (by simp) (by simp)

end Local
end Xolotl.Core
