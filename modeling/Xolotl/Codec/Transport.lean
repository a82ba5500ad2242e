import Xolotl.Codec.Cbor
import Xolotl.Codec.Drain
import Xolotl.Codec.Feed

/-! Events through the wire: any way of draining the encoder gives the same text, and any way
of feeding that text to the decoder gives the events back. -/

namespace Xolotl.Codec

open Xolotl.Types List Word

section

variable {codec : HeaderCodec} {events : List Event} (hfits : (text codec events).length ≤ u64Max)
include hfits

/-! ## Draining -/

theorem drain_sound (buffers : List Nat) :
    Drain.Sound codec (text codec events) ((Drain.start events).run codec buffers) :=
  (Drain.advances hfits).run (Drain.sound_start events) buffers

theorem drain_output {buffers : List Nat}
    (h : ((Drain.start events).run codec buffers).encoder.isComplete = true) :
    ((Drain.start events).run codec buffers).output = text codec events := by
  have hs := drain_sound hfits buffers
  have hw := hs.whole
  rw [hs.isComplete_iff.mp h, append_nil] at hw
  exact hw

theorem drain_completes {buffers : List Nat}
    (h : (text codec events).length ≤ Slicing.offers buffers) :
    ((Drain.start events).run codec buffers).encoder.isComplete = true := by
  refine (drain_sound hfits buffers).isComplete_iff.mpr ?_
  refine (Drain.advances hfits).exhausts (Drain.sound_start events) ?_
  have hw : Drain.pending codec (Drain.start events) = text codec events :=
    (show Drain.Sound codec _ _ from Drain.sound_start events).whole
  rwa [hw]

/-! ## Feeding -/

variable {extra later stream : List UInt8} {windows : List Nat}

theorem feed_good (hs : text codec events ++ extra = stream ++ later) (windows : List Nat) :
    Feed.Good codec events (text codec events).length extra later
      ((Feed.start stream).run codec windows) :=
  (Feed.advances hfits).run (Feed.good_start codec events hs) windows

theorem feed_exhausts (hs : text codec events ++ extra = stream ++ later)
    (h : stream.length ≤ Slicing.offers windows) :
    ((Feed.start stream).run codec windows).pending = [] := by
  refine (Feed.advances hfits).exhausts (Feed.good_start codec events hs) ?_
  exact h

theorem feed_text (windows : List Nat) : let s := (Feed.start (text codec events)).run codec windows
    s.decoder.error = none ∧ (s.rest ≠ [] → s.ended = false) ∧
    ((text codec events).length ≤ Slicing.offers windows → s.rest = []) ∧
    (s.rest = [] → Fragments events s.events ∧ s.ended = true ∧ (s.decoder.finish).1 = .ok () ∧
      s.decoder.bytesRead = (text codec events).length) := by
  intro s
  have hs : text codec events ++ [] = text codec events ++ [] := rfl
  cases feed_good hfits hs windows with
  | trailing _ _ _ he => exact absurd rfl he
  | sound h =>
    refine ⟨h.stands.error, ?_, ?_, h.done⟩
    · intro hr
      exact (h.truncated (append_ne_nil_of_left_ne_nil hr _)).1
    · intro ho
      have hnil := feed_exhausts hfits hs ho
      exact h.pending_eq.symm.trans hnil

theorem feed_front {front : List UInt8}
    (ht : front ++ later = text codec events) (hl : later ≠ []) (windows : List Nat) :
    let s := (Feed.start front).run codec windows
    s.decoder.error = none ∧ s.ended = false ∧
    (s.decoder.finish).1 = .error ⟨s.decoder.bytesRead, .truncated⟩ := by
  intro s
  have hs : text codec events ++ [] = front ++ later := by rw [append_nil, ht]
  cases feed_good hfits hs windows with
  | trailing _ _ _ he => exact absurd rfl he
  | sound h => exact ⟨h.stands.error, h.truncated (append_ne_nil_of_right_ne_nil _ hl)⟩

theorem feed_extended (hex : extra ≠ []) (windows : List Nat) :
    let s := (Feed.start (text codec events ++ extra)).run codec windows
    (∀ error ∈ s.decoder.error, error.kind = .trailingData) ∧
    ((text codec events ++ extra).length ≤ Slicing.offers windows →
      ∃ error, s.decoder.error = some error ∧ error.kind = .trailingData ∧
        (s.decoder.finish).1 = .error error) := by
  intro s
  have hs : text codec events ++ extra = (text codec events ++ extra) ++ [] := (append_nil _).symm
  cases feed_good hfits hs windows with
  | trailing error her hk _ =>
    refine ⟨?_, fun _ => ⟨error, her, hk, ?_⟩⟩
    · intro e he
      cases her.symm.trans he
      exact hk
    · unfold FrameDecoder.finish
      rw [her]
  | sound h =>
    refine ⟨?_, ?_⟩
    · intro e he
      cases h.stands.error.symm.trans he
    · intro ho
      have hnil := h.pending_eq.symm.trans (feed_exhausts hfits hs ho)
      have hen := h.stream
      rw [hnil] at hen
      exact absurd (append_eq_nil_iff.mp hen).2 hex

end

/-! ## There and back -/

/-- However the encoder is drained and the bytes are offered, the events come back. -/
theorem framing_is_lossless (codec : HeaderCodec) (events : List Event)
    (hfits : (text codec events).length ≤ u64Max) (buffers : List Nat) :
    let sent := (Drain.start events).run codec buffers
    sent.encoder.error = none ∧
    ((text codec events).length ≤ Slicing.offers buffers → sent.encoder.isComplete = true) ∧
    (sent.encoder.isComplete = true →
      sent.output = text codec events ∧ sent.encoder.bytesWritten = sent.output.length ∧
      (∀ windows : List Nat,
        let read := (Feed.start sent.output).run codec windows
        read.decoder.error = none ∧ (read.rest ≠ [] → read.ended = false) ∧
        (sent.output.length ≤ Slicing.offers windows → read.rest = []) ∧
        (read.rest = [] → Fragments events read.events ∧ read.ended = true ∧
          (read.decoder.finish).1 = .ok () ∧ read.decoder.bytesRead = sent.output.length)) ∧
      (∀ (front later : List UInt8) (windows : List Nat), front ++ later = sent.output →
        later ≠ [] →
        let read := (Feed.start front).run codec windows
        read.decoder.error = none ∧ read.ended = false ∧
        (read.decoder.finish).1 = .error ⟨read.decoder.bytesRead, .truncated⟩) ∧
      (∀ (extra : List UInt8) (windows : List Nat), extra ≠ [] →
        let read := (Feed.start (sent.output ++ extra)).run codec windows
        (∀ error ∈ read.decoder.error, error.kind = .trailingData) ∧
        ((sent.output ++ extra).length ≤ Slicing.offers windows →
          ∃ error, read.decoder.error = some error ∧ error.kind = .trailingData ∧
            (read.decoder.finish).1 = .error error))) := by
  intro sent
  have hsound := drain_sound hfits buffers
  refine ⟨hsound.error, drain_completes hfits, ?_⟩
  intro hcomplete
  have houtput : sent.output = text codec events := drain_output hfits hcomplete
  refine ⟨houtput, hsound.offset, ?_⟩
  rw [houtput]
  refine ⟨feed_text hfits, ?_, ?_⟩
  · intro front later windows htext hlater
    exact feed_front hfits htext hlater windows
  · intro extra windows hextra
    exact feed_extended hfits hextra windows

def greeting : List Event := [.begin_ .string, .data (Text.bytes "hi"), .end_ .string]

theorem length_greeting : (text Cbor.codec greeting).length = 28 := by
  have hc : chunks (Text.bytes "hi") = [Text.bytes "hi"] := by
    rw [chunks, dif_pos (by decide)]
  simp only [text, greeting, flatMap_cons, eventText, records, hc]
  decide

theorem framing_is_lossless_greeting :
    let sent := (Drain.start greeting).run Cbor.codec (List.replicate 28 1)
    let read := (Feed.start sent.output).run Cbor.codec (List.replicate 28 1)
    Fragments greeting read.events ∧ read.ended = true ∧ (read.decoder.finish).1 = .ok () ∧
      read.decoder.bytesRead = 28 := by
  intro sent read
  have hoffers : Slicing.offers (List.replicate 28 1) = 28 := by decide
  have hfits : (text Cbor.codec greeting).length ≤ u64Max := by
    rw [length_greeting]
    decide
  obtain ⟨-, hcompletes, hsent⟩ :=
    framing_is_lossless Cbor.codec greeting hfits (List.replicate 28 1)
  obtain ⟨houtput, -, hread, -, -⟩ := hsent (hcompletes (by rw [length_greeting, hoffers]))
  have hlength : sent.output.length = 28 := (congrArg List.length houtput).trans length_greeting
  obtain ⟨-, -, hrest, hdone⟩ := hread (List.replicate 28 1)
  obtain ⟨hevents, hended, hfinish, hbytes⟩ := hdone (hrest (by exact hlength.le))
  exact ⟨hevents, hended, hfinish, hbytes.trans hlength⟩

/-! ## Beyond the byte counter -/

theorem eventText_pos (codec : HeaderCodec) (atom : Atom) :
    0 < (eventText codec (.atom atom)).length := by
  have hr : eventText codec (.atom atom) = recordText codec (.atom atom) := append_nil _
  rw [hr]
  refine length_pos_iff.mpr ?_
  refine append_ne_nil_of_left_ne_nil (append_ne_nil_of_left_ne_nil ?_ _) _
  exact append_ne_nil_of_right_ne_nil _ (push_ne_nil trivial)

theorem length_le_text (codec : HeaderCodec) (count : Nat) (atom : Atom) :
    count ≤ (text codec (List.replicate count (.atom atom))).length := by
  have hpos := eventText_pos codec atom
  have he : count ≤
      ((List.replicate count (Event.atom atom)).flatMap (eventText codec)).length := by
    induction count with
    | zero => exact Nat.zero_le _
    | succ count ih =>
      rw [replicate_succ, flatMap_cons, length_append]
      omega
  rw [text, length_append, length_append]
  omega

def uncountable : List Event := List.replicate (u64Max + 1) (.atom .null)

/-- Whatever buffers are offered, the encoder never finishes such a sequence. -/
theorem isComplete_uncountable (buffers : List Nat) :
    ((Drain.start uncountable).run Cbor.codec buffers).encoder.isComplete = false := by
  have hl : u64Max < (text Cbor.codec uncountable).length := length_le_text _ _ _
  have hst : Drain.Sound Cbor.codec _ _ := Drain.sound_start uncountable
  rw [Bool.eq_false_iff]
  intro hcomp
  rcases Drain.run_sound_or_error hst buffers with hs | he
  · have hw := hs.whole
    rw [hs.isComplete_iff.mp hcomp, append_nil] at hw
    have hb := hs.bounded
    rw [hs.offset, hw] at hb
    omega
  · simp [FrameEncoder.isComplete, he] at hcomp

def uncountableBuffers : List Nat := List.replicate (text Cbor.codec uncountable).length 1

theorem uncountable_never_completes :
    (text Cbor.codec uncountable).length ≤ Slicing.offers uncountableBuffers ∧
      ((Drain.start uncountable).run Cbor.codec uncountableBuffers).encoder.isComplete = false := by
  refine ⟨?_, isComplete_uncountable uncountableBuffers⟩
  rw [Slicing.offers, uncountableBuffers, filter_replicate_of_pos (by decide), length_replicate]

end Xolotl.Codec
