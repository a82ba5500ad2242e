import Xolotl.Lib.Machine
import Xolotl.Types.Taint

/-! Collecting a driver's stream. The driver sends chunks over a channel of bounded credits, and the
collector takes them out until it has as many as were asked for, or the driver has returned and the
channel is drained. Their turns come in any order. -/

namespace Xolotl.Types

theorem TaintSet.mem_union {t other : TaintSet} {source : TaintSource} :
    source ∈ (t.union other).sources ↔ source ∈ t.sources ∨ source ∈ other.sources := by
  obtain ⟨sources⟩ := other
  unfold TaintSet.union
  induction sources generalizing t with
  | nil => simp
  | cons first sources ih =>
    have ha : source ∈ (t.add first).sources ↔ source ∈ t.sources ∨ source = first := by
      unfold TaintSet.add
      split
      next hm => exact ⟨.inl, fun h => h.elim id fun heq => heq ▸ hm⟩
      next => rw [List.mem_append, List.mem_singleton]
    rw [List.foldl_cons, ih, ha, List.mem_cons, or_assoc]

end Xolotl.Types

namespace Xolotl.Kernel

open Xolotl.Types List

/-! ## Results -/

inductive Outcome (F : Type)
  | done (value : Value)
  | short (value : Value)
  | fail (failure : F)

structure DriverOutput (F : Type) where
  outcome : Outcome F
  taint : TaintSet

inductive CollectedOutput (F : Type)
  | complete (output : DriverOutput F)
  | interrupted (output : DriverOutput F)

variable {F : Type}

def Outcome.isSuccess : Outcome F → Bool
  | .fail _ => false
  | _ => true

def collectOutcome (outcome : Outcome F) (chunks : List Value) (limit : Nat) : Outcome F :=
  match outcome with
  | .done v | .short v =>
    if chunks.isEmpty && decide (0 < limit) then .done (.list [v]) else .done (.list chunks)
  | .fail f => .fail f

def collected (handlerError : Text → Text → F) (limit : Nat)
    (result : Option (Except (F × TaintSet) (DriverOutput F))) (chunks : List Value)
    (taint : TaintSet) : CollectedOutput F :=
  match result with
  | none =>
    if chunks.length = limit then .interrupted ⟨.short (.list chunks), taint⟩
    else .interrupted
      ⟨.fail (handlerError "driver" "collect stream closed before driver completion"), taint⟩
  | some result =>
    let output := match result with
      | .ok output => output
      | .error (failure, taint) => ⟨.fail failure, taint⟩
    .complete {
      taint := output.taint.union taint
      outcome :=
        if output.outcome.isSuccess && chunks.length == limit then .short (.list chunks)
        else collectOutcome output.outcome chunks limit }

/-! ## The channel -/

structure Chunk extends TaintedValue where
  encoded : Option Nat

structure StreamWindow where
  maxChunks : Nat
  maxInlineBytes : Nat
  chunks_pos : 0 < maxChunks

namespace StreamWindow

variable (w : StreamWindow)

def accepts (chunk : Chunk) : Bool :=
  chunk.encoded.any fun bytes => decide (bytes ≤ w.maxInlineBytes)

def hasRoom (queue : List Chunk) (chunk : Chunk) : Bool :=
  decide (queue.length < w.maxChunks ∧
    chunk.encoded.getD 0 ≤ w.maxInlineBytes - (queue.map fun c => c.encoded.getD 0).sum)

theorem hasRoom_nil {chunk : Chunk} (h : w.accepts chunk = true) : w.hasRoom [] chunk = true := by
  unfold accepts at h
  cases he : chunk.encoded with
  | none => simp [he] at h
  | some bytes => simpa [hasRoom, he, w.chunks_pos] using h

end StreamWindow

/-- The driver with what it has still to send and its result, the chunks under way, and the
collector. -/
structure Collecting (F : Type) where
  toSend : List Chunk
  result : Except (F × TaintSet) (DriverOutput F)
  taint : TaintSet
  returned : Bool := false
  queue : List Chunk := []
  chunks : List Value := []
  output : Option (CollectedOutput F) := none

inductive Turn
  | send | return_ | receive | finish

namespace Collecting

variable (handlerError : Text → Text → F) (limit : Nat) (w : StreamWindow) (s : Collecting F)

/-- A rejected chunk is handed back to the driver, a chunk without room waits. -/
def send : Collecting F :=
  match s.toSend with
  | [] => s
  | chunk :: toSend =>
    if !w.accepts chunk then { s with toSend }
    else if w.hasRoom s.queue chunk then { s with toSend, queue := s.queue ++ [chunk] }
    else s

def receive : Collecting F :=
  match s.queue with
  | chunk :: queue =>
    if s.chunks.length < limit then
      { s with
        queue, chunks := s.chunks ++ [chunk.value], taint := s.taint.union chunk.taint }
    else s
  | [] => s

/-- The collector is through with the limit reached, or with the end of the stream behind all
chunks. -/
def finish : Collecting F :=
  if s.chunks.length < limit ∧ ¬ (s.returned = true ∧ s.queue = []) then s
  else
    let result := if s.returned then some s.result else none
    { s with output := some (collected handlerError limit result s.chunks s.taint) }

def step (turn : Turn) : Unit × Collecting F :=
  if s.output.isSome then ((), s)
  else match turn with
    | .send => ((), s.send w)
    | .return_ => ((), if s.toSend.isEmpty then { s with returned := true } else s)
    | .receive => ((), s.receive limit)
    | .finish => ((), s.finish handlerError limit)

def run (turns : List Turn) : Collecting F := Machine.run (step handlerError limit w) s turns

/-! ## Every schedule -/

/-- What has been taken, is under way and will be sent are the driver's chunks in order. -/
structure Ordered (start s : Collecting F) (taken : List Chunk) : Prop where
  order : taken ++ s.queue ++ s.toSend.filter w.accepts = start.toSend.filter w.accepts
  chunks : s.chunks = taken.map (·.value)
  taint : ∀ source, source ∈ s.taint.sources ↔
    source ∈ start.taint.sources ∨ ∃ chunk ∈ taken, source ∈ chunk.taint.sources
  length_le : taken.length ≤ limit
  returned : s.returned = true → s.toSend = []
  result : s.result = start.result
  output : ∀ output ∈ s.output, (taken.length = limit ∨ s.returned = true ∧ s.queue = []) ∧
    output = collected handlerError limit (if s.returned then some s.result else none)
      s.chunks s.taint

def work : Nat := 2 * s.toSend.length + s.queue.length + if s.returned then 0 else 1

theorem exists_turn (hn : s.output = none) :
    ∃ turn, (s.step handlerError limit w turn).2.output.isSome = true ∨
      (s.step handlerError limit w turn).2.work < s.work := by
  by_cases hl : s.chunks.length < limit
  · cases hq : s.queue with
    | cons chunk queue =>
      refine ⟨.receive, .inr ?_⟩
      simp [step, receive, work, hn, hq, hl]
    | nil =>
      cases hsend : s.toSend with
      | cons chunk toSend =>
        refine ⟨.send, .inr ?_⟩
        by_cases ha : w.accepts chunk = true
        · simp [step, send, work, hn, hq, hsend, ha, w.hasRoom_nil ha]
          omega
        · simp [step, send, work, hn, hq, hsend, ha]
      | nil =>
        cases hr : s.returned with
        | false => exact ⟨.return_, .inr (by simp [step, work, hn, hsend, hr])⟩
        | true => exact ⟨.finish, .inl (by simp [step, finish, hn, hq, hr])⟩
  · exact ⟨.finish, .inl (by simp [step, finish, hn, hl])⟩

theorem exists_output : ∃ turns, (s.run handlerError limit w turns).output.isSome = true := by
  induction hw : s.work using Nat.strongRecOn generalizing s with
  | ind n ih =>
    cases hn : s.output with
    | some output => exact ⟨[], by simp [run, Machine.run, hn]⟩
    | none =>
      obtain ⟨turn, hs | hl⟩ := s.exists_turn handlerError limit w hn
      · exact ⟨[turn], hs⟩
      · obtain ⟨turns, ht⟩ := ih _ (hw ▸ hl) _ rfl
        exact ⟨turn :: turns, ht⟩

variable {handlerError limit w s} {start : Collecting F} {taken : List Chunk}
  (h : Ordered handlerError limit w start s taken)
include h

theorem Ordered.step (turn : Turn) :
    ∃ taken, Ordered handlerError limit w start (s.step handlerError limit w turn).2 taken := by
  unfold Collecting.step
  split
  next => exact ⟨taken, h⟩
  next ho =>
    have hn : s.output = none := by simpa using ho
    cases turn with
    | send =>
      refine ⟨taken, ?_⟩
      dsimp only [send]
      split
      next => exact h
      next chunk toSend hsend =>
        have hre : s.returned = true → toSend = [] := fun hr => by
          rw [h.returned hr] at hsend
          cases hsend
        have hor := h.order
        rw [hsend] at hor
        split
        next hrj =>
          refine { h with order := ?_, returned := hre }
          rwa [filter_cons_of_neg (by simpa using hrj)] at hor
        next ha =>
          split
          next =>
            refine { h with order := ?_, returned := hre, output := by simp [hn] }
            rw [filter_cons_of_pos (by simpa using ha)] at hor
            rw [← hor]
            simp
          next => exact h
    | return_ =>
      refine ⟨taken, ?_⟩
      dsimp only
      split
      next he =>
        exact { h with returned := fun _ => by simpa using he, output := by simp [hn] }
      next => exact h
    | receive =>
      dsimp only [receive]
      split
      next chunk queue hq =>
        split
        next hl =>
          refine ⟨taken ++ [chunk], { h with
            order := ?_, chunks := ?_, taint := fun source => ?_, length_le := ?_, output := ?_ }⟩
          · rw [← h.order, hq]
            simp
          · rw [map_append, h.chunks]
            rfl
          · rw [TaintSet.mem_union, h.taint]
            simp [or_and_right, exists_or, or_assoc]
          · rw [h.chunks, length_map] at hl
            rw [length_append]
            exact hl
          · simp [hn]
        next => exact ⟨taken, h⟩
      next => exact ⟨taken, h⟩
    | finish =>
      refine ⟨taken, ?_⟩
      dsimp only [finish]
      split
      next => exact h
      next hd =>
        refine { h with output := fun output hou => ⟨?_, (Option.some.inj hou).symm⟩ }
        rw [h.chunks, length_map] at hd
        have hle := h.length_le
        by_cases hl : taken.length < limit
        · exact .inr (by simpa [hl] using hd)
        · exact .inl (by omega)

theorem ordered_run (turns : List Turn) :
    ∃ taken, Ordered handlerError limit w start (s.run handlerError limit w turns) taken :=
  Machine.run_invariant (I := fun s => ∃ taken, Ordered handlerError limit w start s taken)
    (fun _ turn ⟨_, h⟩ => h.step turn) ⟨taken, h⟩ turns

theorem Ordered.take_eq (hd : taken.length = limit ∨ s.returned = true ∧ s.queue = []) :
    (start.toSend.filter w.accepts).take limit = taken := by
  rw [← h.order]
  rcases hd with hl | ⟨hr, hq⟩
  · rw [← hl, append_assoc, take_left]
  · rw [hq, h.returned hr, filter_nil, append_nil, append_nil]
    exact take_of_length_le h.length_le

omit h in
/-- The collected output does not depend on the schedule, and every schedule can be completed. -/
theorem collected_output_is_schedule_independent (handlerError : Text → Text → F) (limit : Nat)
    (w : StreamWindow) (sent : List Chunk) (value : Value) (isShort : Bool)
    (taint returned : TaintSet) (turns : List Turn) :
    let outcome : Outcome F := if isShort then .short value else .done value
    let start : Collecting F := { toSend := sent, result := .ok ⟨outcome, returned⟩, taint }
    let s := start.run handlerError limit w turns
    let chunks := sent.filter w.accepts
    (∀ output ∈ s.output, ∃ o : DriverOutput F,
      (output = .complete o ∨ output = .interrupted o ∧ s.chunks.length = limit ∧
        s.returned = false) ∧
      o.outcome =
        (if limit ≤ chunks.length then .short (.list ((chunks.take limit).map (·.value)))
          else .done (.list (if chunks = [] then [value] else chunks.map (·.value)))) ∧
      (∀ source ∈ taint.sources, source ∈ o.taint.sources) ∧
      ∀ chunk ∈ chunks.take limit, ∀ source ∈ chunk.taint.sources, source ∈ o.taint.sources) ∧
    ∃ more, (start.run handlerError limit w (turns ++ more)).output.isSome = true := by
  intro outcome start s chunks
  have hstart : Ordered handlerError limit w start start [] :=
    ⟨rfl, rfl, by simp, Nat.zero_le _, nofun, rfl, nofun⟩
  obtain ⟨taken, h⟩ := ordered_run hstart turns
  change Ordered handlerError limit w start s taken at h
  refine ⟨fun output houtput => ?_, ?_⟩
  · obtain ⟨hdone, rfl⟩ := h.output output houtput
    have htake : chunks.take limit = taken := h.take_eq hdone
    have hfull : limit ≤ chunks.length ↔ taken.length = limit := by
      rw [← htake, length_take]
      omega
    have hlen : s.chunks.length = taken.length := by rw [h.chunks, length_map]
    have hinput : ∀ source ∈ taint.sources, source ∈ s.taint.sources := fun source hmem =>
      (h.taint source).mpr (.inl hmem)
    have htaken : ∀ chunk ∈ chunks.take limit, ∀ source ∈ chunk.taint.sources,
        source ∈ s.taint.sources := fun chunk hchunk source hmem =>
      (h.taint source).mpr (.inr ⟨chunk, htake ▸ hchunk, hmem⟩)
    cases hreturned : s.returned with
    | false =>
      have hlimit := hdone.resolve_right (by simp [hreturned])
      refine ⟨⟨.short (.list s.chunks), s.taint⟩, .inr ⟨?_, hlen.trans hlimit, rfl⟩, ?_, hinput,
        htaken⟩
      · simp [collected, hlen, hlimit]
      · simp only
        rw [if_pos (hfull.mpr hlimit), htake, h.chunks]
    | true =>
      refine ⟨_, .inl rfl, ?_,
        fun source hmem => TaintSet.mem_union.mpr (.inr (hinput source hmem)),
        fun chunk hchunk source hmem =>
          TaintSet.mem_union.mpr (.inr (htaken chunk hchunk source hmem))⟩
      have hresult : s.result = .ok ⟨outcome, returned⟩ := h.result
      have hsuccess : outcome.isSuccess = true := by
        simp only [outcome]
        split <;> rfl
      simp only [hresult, hsuccess, hlen, Bool.true_and, beq_iff_eq]
      by_cases hlimit : taken.length = limit
      · rw [if_pos hlimit, if_pos (hfull.mpr hlimit), htake, h.chunks]
      · have hless := Nat.lt_of_not_le (mt hfull.mp hlimit)
        have hall : chunks = taken := (take_of_length_le (Nat.le_of_lt hless)).symm.trans htake
        rw [if_neg hlimit, if_neg (Nat.not_le.mpr hless), hall, h.chunks]
        simp only [outcome]
        cases isShort <;> cases taken <;> simp [collectOutcome, Nat.zero_lt_of_lt hless]
  · obtain ⟨more, hmore⟩ := s.exists_output handlerError limit w
    refine ⟨more, ?_⟩
    rwa [run, Machine.run_append]

end Collecting
end Xolotl.Kernel
