import Xolotl.Codec.Reading
import Xolotl.Lib.Slicing

/-! Feeding a decoder: a driver offers windows of any sizes of a byte stream, and offers what
was not consumed again. -/

namespace Xolotl.Codec

open Xolotl.Types List Word

variable (codec : HeaderCodec)

/-- The decoder with the bytes not yet consumed, the events it has yielded, and whether it has
reported the end. -/
structure Feed where
  decoder : FrameDecoder
  rest : List UInt8
  events : List Event
  ended : Bool

namespace Feed

def start (stream : List UInt8) : Feed := ⟨.new, stream, [], false⟩

def step (s : Feed) (room : Nat) : Feed :=
  match s.decoder.decode codec (s.rest.take room) with
  | (.error _, decoder) => { s with decoder }
  | (.ok ⟨consumed, status⟩, decoder) =>
    let s := { s with decoder, rest := s.rest.drop consumed }
    match status with
    | .needInput => s
    | .event event => { s with events := s.events ++ [event] }
    | .end_ => { s with ended := true }

def run (s : Feed) (rooms : List Nat) : Feed := rooms.foldl (step codec) s

end Feed

/-! ## Fragments -/

/-- The second sequence is the first with some nonempty data events cut into nonempty parts. -/
inductive Fragments : List Event → List Event → Prop
  | nil : Fragments [] []
  | same {event : Event} {events parts : List Event} : Fragments events parts →
      Fragments (event :: events) (event :: parts)
  | cut {front rest : List UInt8} {events parts : List Event} : front ≠ [] → rest ≠ [] →
      Fragments (.data rest :: events) parts →
      Fragments (.data (front ++ rest) :: events) (.data front :: parts)

namespace Fragments

theorem trans {a b c : List Event} (hab : Fragments a b) (hbc : Fragments b c) : Fragments a c := by
  induction hbc generalizing a with
  | nil => exact hab
  | @same event events parts _ ih =>
    cases hab with
    | same h => exact .same (ih h)
    | cut hf hr h => exact .cut hf hr (ih h)
  | @cut front rest events parts hf hr _ ih =>
    cases hab with
    | same h => exact .cut hf hr (ih (.same h))
    | @cut _ last _ _ _ hlast h =>
      rw [append_assoc]
      exact .cut hf (append_ne_nil_of_left_ne_nil hr _) (ih (.cut hr hlast h))

theorem chunks_append (data : List UInt8) {events parts : List Event} (h : Fragments events parts) :
    Fragments (.data data :: events) ((chunks data).map .data ++ parts) := by
  fun_induction chunks data with
  | case1 data _ => exact .same h
  | case2 data hl ih =>
    have hf : data.take u32Max ≠ [] := by
      refine ne_nil_of_length_pos ?_
      rw [length_take]
      have : 0 < u32Max := by decide
      omega
    have hr : data.drop u32Max ≠ [] := by
      refine ne_nil_of_length_pos ?_
      rw [length_drop]
      omega
    have hc := cut hf hr ih
    rwa [take_append_drop] at hc

theorem records (events : List Event) : Fragments events (events.flatMap Codec.records) := by
  induction events with
  | nil => exact .nil
  | cons event events ih =>
    cases event with
    | data data => exact chunks_append data ih
    | begin_ _ | end_ _ | atom _ => exact .same ih

theorem of_yields {events rest parts : List Event} {event : Event} (h : Yields events event rest)
    (hr : Fragments rest parts) : Fragments events (event :: parts) := by
  cases h with
  | whole => exact .same hr
  | part hf hne => exact .cut hf hne hr

end Fragments

/-! ## Whole feeds -/

namespace Feed

variable {codec} {all : List Event} {total : Nat} {extra later : List UInt8} {s : Feed}

variable (codec) in
/-- A feed in good order. The stream is the text followed by `extra`, up to its end before
`later`. -/
structure Sound (all : List Event) (total : Nat) (extra later : List UInt8) (s : Feed)
    (left : List UInt8) (tokens : List Token) (pending : List Event) : Prop where
  stands : Stands codec total s.decoder left tokens pending
  stream : left ++ extra = s.rest ++ later
  events : ∀ parts, Fragments pending parts → Fragments all (s.events ++ parts)
  ended : tokens = [] → s.ended = true
  early : s.ended = true → s.rest ++ later = extra

variable (codec) in
/-- A step consumes a front part of the stream, or has met bytes behind the text. -/
inductive Stepped (all : List Event) (total : Nat) (extra later rest : List UInt8) (room : Nat)
    (s : Feed) : Prop
  | ok {left : List UInt8} {tokens : List Token} {pending : List Event} (count : Nat) :
      Sound codec all total extra later s left tokens pending → s.rest = rest.drop count →
      (0 < room → rest ≠ [] → 0 < count) → Stepped all total extra later rest room s
  | trailing (error : Error) : s.decoder.error = some error → error.kind = .trailingData →
      extra ≠ [] → Stepped all total extra later rest room s

variable {left : List UInt8} {tokens : List Token}

theorem early_of_stream {rest rest' : List UInt8} (hs : left ++ extra = rest' ++ later)
    (hle : rest'.length ≤ rest.length) (h : rest ++ later = extra) : rest' ++ later = extra := by
  have hl := congrArg List.length hs
  have ha := congrArg List.length h
  simp only [length_append] at hl ha
  have hnil : left = [] := length_eq_zero_iff.mp (by omega)
  rw [← hs, hnil]
  rfl

theorem stepped (ht : total ≤ u64Max)
    {pending : List Event} (h : Sound codec all total extra later s left tokens pending)
    (room : Nat) : Stepped codec all total extra later s.rest room (s.step codec room) := by
  have hi : left ++ extra = s.rest.take room ++ (s.rest.drop room ++ later) := by
    rw [h.stream, ← append_assoc, take_append_drop]
  have hd : s.rest.drop (s.rest.take room).length = s.rest.drop room := by
    rw [length_take]
    rcases Nat.le_total room s.rest.length with hle | hle
    · rw [Nat.min_eq_left hle]
    · rw [Nat.min_eq_right hle, drop_length, drop_eq_nil_of_le hle]
  have hc : 0 < room → s.rest ≠ [] → 0 < (s.rest.take room).length := by
    intro hro hne
    rw [length_take]
    exact Nat.lt_min.mpr ⟨hro, length_pos_iff.mpr hne⟩
  have hde := decoded ht h.stands hi
  unfold step
  generalize s.decoder.decode codec (s.rest.take room) = result at hde
  cases hde with
  | needInput hs hne heq =>
    refine .ok (s.rest.take room).length ⟨hs, ?_, h.events, fun hnil => absurd hnil hne, ?_⟩ rfl hc
    · simp only [hd]
      exact heq
    · intro he
      simp only [hd]
      exact early_of_stream heq (drop_sublist _ _).length_le (h.early he)
  | @event decoder left' tokens' event pending' consumed hs hne heq hpos hle hy =>
    have hr : s.rest.drop consumed = (s.rest.take room).drop consumed ++ s.rest.drop room := by
      conv_lhs => rw [← take_append_drop room s.rest]
      exact drop_append_of_le_length hle
    have hst : left' ++ extra = s.rest.drop consumed ++ later := by
      rw [hr, append_assoc]
      exact heq
    refine .ok consumed ⟨hs, hst, ?_, fun hnil => absurd hnil hne, ?_⟩ rfl fun _ _ => hpos
    · intro parts hp
      rw [append_assoc]
      exact h.events _ (.of_yields hy hp)
    · intro he
      exact early_of_stream hst (drop_sublist _ _).length_le (h.early he)
  | end_ hs hev heq =>
    have hst : s.rest.drop (s.rest.take room).length ++ later = extra := by
      rw [hd]
      exact heq.symm
    refine .ok (s.rest.take room).length ⟨hs, hst.symm, ?_, fun _ => rfl, fun _ => hst⟩
      rfl hc
    intro parts hp
    exact h.events _ (hev ▸ hp)
  | trailing hk her hex => exact .trailing _ her hk hex

variable (codec) in
/-- Where a feed can be: at a place of the text, or stopped by bytes behind it. -/
inductive Good (all : List Event) (total : Nat) (extra later : List UInt8) (s : Feed) : Prop
  | sound {left : List UInt8} {tokens : List Token} {pending : List Event} :
      Sound codec all total extra later s left tokens pending → Good all total extra later s
  | trailing (error : Error) : s.decoder.error = some error → error.kind = .trailingData →
      extra ≠ [] → Good all total extra later s

def pending (s : Feed) : List UInt8 := if s.decoder.error = none then s.rest else []

theorem Sound.pending_eq {pending : List Event}
    (h : Sound codec all total extra later s left tokens pending) : s.pending = s.rest :=
  if_pos h.stands.error

theorem pending_error {error : Error} (h : s.decoder.error = some error) : s.pending = [] :=
  if_neg (by rw [h]; nofun)

theorem step_error {error : Error} (h : s.decoder.error = some error) (room : Nat) :
    s.step codec room = s := by
  simp only [step, FrameDecoder.decode, h]

theorem advances (ht : total ≤ u64Max) :
    Slicing.Advances (Good codec all total extra later) pending (step codec) where
  keeps s room h := by
    cases h with
    | sound h =>
      cases stepped ht h room with
      | ok _ hs _ _ => exact .sound hs
      | trailing error her hk he => exact .trailing error her hk he
    | trailing error her hk he =>
      rw [step_error her]
      exact .trailing error her hk he
  shrinks s room h := by
    cases h with
    | sound h =>
      rw [h.pending_eq]
      cases stepped ht h room with
      | ok count hs hr _ =>
        rw [hs.pending_eq, hr, length_drop]
        exact Nat.sub_le _ _
      | trailing error her _ _ =>
        rw [pending_error her]
        exact Nat.zero_le _
    | trailing error her _ _ => exact Nat.le_of_eq (by rw [step_error her])
  moves s room h hro hne := by
    cases h with
    | sound h =>
      rw [h.pending_eq] at hne ⊢
      have hpos := length_pos_iff.mpr hne
      cases stepped ht h room with
      | ok count hs hr hc =>
        have := hc hro hne
        rw [hs.pending_eq, hr, length_drop]
        omega
      | trailing error her _ _ =>
        rw [pending_error her]
        exact hpos
    | trailing error her _ _ => exact absurd (pending_error her) hne

theorem good_start (codec : HeaderCodec) (events : List Event) {stream : List UInt8}
    (h : text codec events ++ extra = stream ++ later) :
    Good codec events (text codec events).length extra later (start stream) := by
  refine .sound ⟨⟨script_text events, ?_, .inl rfl, rfl, Nat.zero_add _⟩, h, ?_, nofun, nofun⟩
  · exact (tokenBytes_text codec events).symm
  · intro parts hp
    exact (Fragments.records events).trans hp

namespace Sound

variable {left : List UInt8} {tokens : List Token} {pending : List Event}

theorem done (h : Sound codec all total [] [] s left tokens pending) (hr : s.rest = []) :
    Fragments all s.events ∧ s.ended = true ∧ (s.decoder.finish).1 = .ok () ∧
      s.decoder.bytesRead = total := by
  have hl : left = [] := by
    have hs := h.stream
    rw [hr] at hs
    simpa using hs
  subst hl
  have hst := h.stands.state_of_left_nil
  obtain ⟨rfl, rfl⟩ := h.stands.nil_of_ended hst
  refine ⟨?_, h.ended rfl, ?_, h.stands.offset⟩
  · have he := h.events [] .nil
    rwa [append_nil] at he
  · simp only [FrameDecoder.finish, h.stands.error, hst]

theorem truncated (h : Sound codec all total [] later s left tokens pending)
    (hne : s.rest ++ later ≠ []) : s.ended = false ∧
      (s.decoder.finish).1 = .error ⟨s.decoder.offset, .truncated⟩ := by
  have hl : left ≠ [] := by
    have hs := h.stream
    rw [append_nil] at hs
    rwa [hs]
  refine ⟨Bool.eq_false_iff.mpr fun he => hne (h.early he), ?_⟩
  have hsc := h.stands.script
  have he : s.decoder.state ≠ .ended := by
    intro hst
    obtain ⟨rfl, -⟩ := h.stands.nil_of_ended hst
    exact hl (append_eq_nil_iff.mp h.stands.bytes).2
  have hf : s.decoder.state ≠ .finished := by
    intro hst
    rw [hst] at hsc
    cases hsc with
    | header hr _ _ _ => cases hr
  simp [FrameDecoder.finish, FrameDecoder.fail, h.stands.error]

end Sound

end Feed

end Xolotl.Codec
