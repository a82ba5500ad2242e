import Xolotl.Codec.FrameEncoder
import Xolotl.Lib.Slicing

/-! Draining an encoder: a driver offers the events one after the other and empties the
encoder into buffers of any sizes. -/

namespace Xolotl.Codec

open Xolotl.Types List

variable (codec : HeaderCodec)

structure Drain where
  encoder : FrameEncoder
  writer : Option EventWriter
  events : List Event
  output : List UInt8

namespace Drain

def start (events : List Event) : Drain := ⟨.new, none, events, []⟩

def put (s : Drain) (w : EventWriter) (room : Nat) : Drain :=
  match EventWriter.write codec s.encoder w room with
  | (.error _, encoder, w) => { s with encoder, writer := some w }
  | (.ok bytes, encoder, w) =>
    { s with encoder, writer := if w.complete then none else some w, output := s.output ++ bytes }

def step (s : Drain) (room : Nat) : Drain :=
  match s.writer with
  | some w => s.put codec w room
  | none =>
    match s.events with
    | event :: events =>
      match s.encoder.startEvent codec event with
      | (.error _, encoder) => { s with encoder }
      | (.ok w, encoder) => put codec { s with encoder, events } w room
    | [] =>
      match s.encoder.finish codec room with
      | (.error _, encoder) => { s with encoder }
      | (.ok bytes, encoder) => { s with encoder, output := s.output ++ bytes }

def run (s : Drain) (rooms : List Nat) : Drain := rooms.foldl (step codec) s

variable {codec}

variable (codec) in
def pending (s : Drain) : List UInt8 :=
  if s.encoder.state = .finished then []
  else
    s.encoder.envelopePending codec ++ (s.writer.map (EventWriter.pending codec)).getD [] ++
      s.events.flatMap (eventText codec) ++ codec.push .break_

variable (codec) in
/-- A drain in good order: what it has written and what is pending make up the text. -/
structure Sound (text : List UInt8) (s : Drain) : Prop where
  encoder : FrameEncoder.Sound codec s.encoder
  error : s.encoder.error = none
  whole : s.output ++ s.pending codec = text
  offset : s.encoder.offset = s.output.length
  bounded : s.encoder.offset ≤ Word.u64Max
  active : ∀ w ∈ s.writer, s.encoder.state = .active ∧ EventWriter.Busy w
  idle : s.writer = none → s.encoder.state = .open_ ∨
    s.events = [] ∧ (s.encoder.state = .finishing ∨ s.encoder.state = .finished)

theorem sound_start (events : List Event) : Sound codec (text codec events) (start events) := by
  refine ⟨FrameEncoder.sound_new, rfl, ?_, rfl, Nat.zero_le _, nofun, fun _ => .inl rfl⟩
  simp [pending, start, FrameEncoder.new, FrameEncoder.envelopePending, text]

variable (codec) in
/-- One step drains a front part of what is pending, or the byte counter has overflowed. -/
inductive Moved (text rest : List UInt8) (room : Nat) (s : Drain) : Prop
  | ok (count : Nat) : Sound codec text s → s.pending codec = rest.drop count →
      (0 < room → rest ≠ [] → 0 < count) → Moved text rest room s
  | overflow : s.encoder.error ≠ none → Word.u64Max < text.length → Moved text rest room s

section

variable {text front rest : List UInt8} {room : Nat} {s s' : Drain}

theorem Moved.of_error (hof : s.encoder.offset = s.output.length)
    (hw : s.output ++ (front ++ rest) = text) (hf : ¬ s.encoder.Fits (front.take room))
    {e : Error} (ho : s'.encoder.Overflowed e) : Moved codec text (front ++ rest) room s' := by
  refine .overflow (by rw [ho.2]; nofun) ?_
  rw [FrameEncoder.Fits, length_take] at hf
  rw [← hw, length_append, length_append]
  omega

theorem Moved.of_take (hof : s.encoder.offset = s.output.length)
    (hw : s.output ++ (front ++ rest) = text) (hfi : s.encoder.Fits (front.take room))
    (hm : s'.encoder.offset = s.encoder.offset + (front.take room).length)
    (ho : s'.output = s.output ++ front.take room)
    (hp : s'.pending codec = front.drop room ++ rest) (hf : front ≠ [])
    (hs : FrameEncoder.Sound codec s'.encoder) (he : s'.encoder.error = none)
    (ha : ∀ w ∈ s'.writer, s'.encoder.state = .active ∧ EventWriter.Busy w)
    (hi : s'.writer = none → s'.encoder.state = .open_ ∨
      s'.events = [] ∧ (s'.encoder.state = .finishing ∨ s'.encoder.state = .finished)) :
    Moved codec text (front ++ rest) room s' := by
  refine .ok (front.take room).length ⟨hs, he, ?_, ?_, ?_, ha, hi⟩ ?_ ?_
  · rw [hp, ho, ← hw, append_assoc, ← append_assoc (front.take room), take_append_drop]
  · rw [hm, hof, ho, length_append]
  · rw [hm]
    exact hfi
  · rw [hp, drop_append_of_le_length (length_take_le' ..), FrameEncoder.drop_length_take]
  · intro hr _
    rw [length_take]
    exact Nat.lt_min.mpr ⟨hr, length_pos_iff.mpr hf⟩

end

variable {text : List UInt8} {s : Drain}

theorem moved_put (hs : FrameEncoder.Sound codec s.encoder)
    (he : s.encoder.error = none) (hst : s.encoder.state = .active) {w : EventWriter}
    (hw : EventWriter.Busy w)
    (hwh : s.output ++ ((s.encoder.envelopePending codec ++ w.pending codec) ++
      (s.events.flatMap (eventText codec) ++ codec.push .break_)) = text)
    (hof : s.encoder.offset = s.output.length) (room : Nat) :
    Moved codec text ((s.encoder.envelopePending codec ++ w.pending codec) ++
      (s.events.flatMap (eventText codec) ++ codec.push .break_)) room (s.put codec w room) := by
  unfold put
  have hwr := EventWriter.write_spec he hs hw room
  generalize EventWriter.write codec s.encoder w room = r at hwr
  cases hwr with
  | error hf hov => exact .of_error hof hwh hf hov
  | @ok next hf h =>
    obtain ⟨enc', w'⟩ := next
    have hwt : ((if w'.complete then none else some w').map (EventWriter.pending codec)).getD [] =
        w'.pending codec := by
      split
      next hd => rw [EventWriter.pending, hd]; rfl
      next => rfl
    have hr : enc'.state = .open_ ∨ enc'.state = .active :=
      h.state.imp And.right fun hb => hb.2.trans hst
    refine .of_take hof hwh hf h.offset rfl ?_ ?_ h.sound h.error ?_ ?_
    · rw [pending, if_neg (by rcases hr with h | h <;> rw [h] <;> decide)]
      simp only [hwt]
      rw [h.pending, append_assoc]
    · exact append_ne_nil_of_right_ne_nil _ hw.pending_ne_nil
    · intro v hv
      dsimp only at hv
      split at hv
      next => cases hv
      next hm =>
        cases hv
        rcases h.state with ⟨hd, -⟩ | ⟨hbu, hsa⟩
        · exact absurd hd hm
        · exact ⟨hsa.trans hst, hbu⟩
    · intro hn
      rcases h.state with ⟨-, ho⟩ | ⟨hbu, -⟩
      · exact .inl ho
      · dsimp only at hn
        rw [hbu.incomplete] at hn
        cases hn

variable (codec) in
theorem pending_running (h : s.encoder.state ≠ .finished) :
    s.pending codec = s.encoder.envelopePending codec ++
      (s.writer.map (EventWriter.pending codec)).getD [] ++
      (s.events.flatMap (eventText codec) ++ codec.push .break_) := by
  rw [pending, if_neg h, append_assoc]

variable (h : Sound codec text s)
include h

theorem moved_finish (hwr : s.writer = none) (he : s.events = []) (room : Nat) :
    Moved codec text (s.pending codec) room (s.step codec room) := by
  have hsp : s.step codec room =
      match s.encoder.finish codec room with
      | (.error _, encoder) => { s with encoder }
      | (.ok bytes, encoder) => { s with encoder, output := s.output ++ bytes } := by
    rw [step, hwr, he]
  rw [hsp]
  by_cases hd : s.encoder.state = .finished
  · have hfi : s.encoder.finish codec room = (.ok [], s.encoder) := by
      rw [FrameEncoder.finish, h.error, hd]
    simp only [hfi, append_nil]
    refine .ok 0 h rfl fun _ hne => ?_
    rw [pending, if_pos hd] at hne
    exact absurd rfl hne
  · have hst : s.encoder.state = .open_ ∨ s.encoder.state = .finishing := by
      rcases h.idle hwr with ho | ⟨-, hfn | hfn⟩
      · exact .inl ho
      · exact .inr hfn
      · exact absurd hfn hd
    have hp : s.pending codec = s.encoder.envelopePending codec ++ codec.push .break_ ++ [] := by
      rw [pending_running codec hd, hwr, he]
      simp
    have hw := h.whole
    rw [hp] at hw ⊢
    have hs := FrameEncoder.finish_spec h.error h.encoder hst room
    generalize s.encoder.finish codec room = r at hs
    cases hs with
    | error hf hov => exact .of_error h.offset hw hf hov
    | @ok enc' hf hn =>
      refine .of_take h.offset hw hf hn.offset rfl ?_ ?_ hn.sound hn.error ?_ ?_
      · rw [append_nil]
        rcases hn.state with ⟨hfn, hle⟩ | ⟨hfn, hr, -⟩
        · rw [pending, if_pos hfn, drop_eq_nil_of_le hle]
        · rw [pending_running codec (by rw [hfn]; nofun), ← hr]
          simp [hwr, he]
      · have hb : (codec.push .break_).length = 1 := codec.length_push .break_ trivial
        exact append_ne_nil_of_right_ne_nil _ (ne_nil_of_length_eq_add_one hb)
      · simp only [hwr]
        nofun
      · exact fun _ => .inr ⟨he, hn.state.elim (fun h => .inr h.1) fun h => .inl h.1⟩

theorem moved_step (room : Nat) : Moved codec text (s.pending codec) room (s.step codec room) := by
  cases hwr : s.writer with
  | some w =>
    obtain ⟨ha, hb⟩ := h.active w hwr
    have hp := pending_running codec (s := s) (by rw [ha]; nofun)
    have hw := h.whole
    rw [hwr] at hp
    rw [hp] at hw ⊢
    rw [step, hwr]
    exact moved_put h.encoder h.error ha hb hw h.offset room
  | none =>
    cases he : s.events with
    | nil => exact moved_finish h hwr he room
    | cons event events =>
      have ho : s.encoder.state = .open_ := by
        rcases h.idle hwr with ho | ⟨hnil, -⟩
        · exact ho
        · rw [he] at hnil
          cases hnil
      obtain ⟨w, hst, hb, ht⟩ := FrameEncoder.startEvent_spec codec h.error ho event
      have hp : s.pending codec =
          (s.encoder.envelopePending codec ++ w.pending codec) ++
            (events.flatMap (eventText codec) ++ codec.push .break_) := by
        rw [pending_running codec (by rw [ho]; nofun), hwr, he, ht]
        simp
      have hw := h.whole
      rw [hp] at hw ⊢
      have hs : s.step codec room =
          put codec { s with encoder := { s.encoder with state := .active }, events } w room := by
        rw [step, hwr, he]
        simp only [hst]
      rw [hs]
      exact moved_put (s := { s with encoder := { s.encoder with state := .active }, events })
        (h.encoder.active _) h.error rfl hb hw h.offset room

/-! ## Whole drains -/

omit h in
theorem advances (ht : text.length ≤ Word.u64Max) :
    Slicing.Advances (Sound codec text) (pending codec) (step codec) where
  keeps s room h := by
    cases moved_step h room with
    | ok count hs _ _ => exact hs
    | overflow _ ho => exact absurd ht (Nat.not_le_of_lt ho)
  shrinks s room h := by
    cases moved_step h room with
    | ok count _ hp _ =>
      rw [hp, length_drop]
      exact Nat.sub_le _ _
    | overflow _ ho => exact absurd ht (Nat.not_le_of_lt ho)
  moves s room h hr hne := by
    cases moved_step h room with
    | ok count _ hp hc =>
      have hpos := length_pos_iff.mpr hne
      have := hc hr hne
      rw [hp, length_drop]
      omega
    | overflow _ ho => exact absurd ht (Nat.not_le_of_lt ho)

theorem Sound.isComplete_iff : s.encoder.isComplete = true ↔ s.pending codec = [] := by
  have hb : (codec.push .break_).length = 1 := codec.length_push .break_ trivial
  have hcomp : s.encoder.isComplete = true ↔ s.encoder.state = .finished := by
    simp [FrameEncoder.isComplete, h.error]
  rw [hcomp]
  constructor
  · exact fun hf => if_pos hf
  · intro hnil
    by_contra hf
    rw [pending_running codec hf] at hnil
    have hl := congrArg List.length hnil
    simp only [length_append, length_nil] at hl
    omega

omit h in
theorem step_error (h : s.encoder.error ≠ none) (room : Nat) :
    (s.step codec room).encoder.error ≠ none := by
  obtain ⟨e, he⟩ := Option.ne_none_iff_exists'.mp h
  unfold step
  split
  next w hw =>
    simp only [put, EventWriter.write, he]
    nofun
  next =>
    split
    next =>
      simp only [FrameEncoder.startEvent, he]
      nofun
    next =>
      simp only [FrameEncoder.finish, he]
      nofun

/-- Without a bound on the text, a drain is in good order until the byte counter overflows. -/
theorem run_sound_or_error (rooms : List Nat) :
    Sound codec text (s.run codec rooms) ∨ (s.run codec rooms).encoder.error ≠ none := by
  suffices hr : ∀ s : Drain, Sound codec text s ∨ s.encoder.error ≠ none →
      Sound codec text (s.run codec rooms) ∨ (s.run codec rooms).encoder.error ≠ none from
    hr s (.inl h)
  induction rooms with
  | nil => exact fun s h => h
  | cons room rooms ih =>
    rintro s (h | h)
    · refine ih _ ?_
      cases moved_step h room with
      | ok count hs _ _ => exact .inl hs
      | overflow he _ => exact .inr he
    · exact ih _ (.inr (step_error h room))

end Drain

end Xolotl.Codec
