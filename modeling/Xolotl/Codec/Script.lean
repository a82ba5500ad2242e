import Xolotl.Codec.FrameDecoder
import Xolotl.Codec.FrameEncoder

/-! The text of events as the decoder reads it: a script of headers and payloads, with the
events they yield. Wherever the windows end, the decoder stands at a place of the script. -/

namespace Xolotl.Codec

open Xolotl.Types List Word

variable (codec : HeaderCodec)

/-! ## Scripts -/

inductive Token
  | header (header : Header)
  | raw (bytes : List UInt8)

def Token.bytes : Token → List UInt8
  | header h => codec.push h
  | raw bytes => bytes

def tokenBytes (tokens : List Token) : List UInt8 := tokens.flatMap (Token.bytes codec)

def DecodeState.reads : DecodeState → Bool
  | magic _ | data _ | ended | finished => false
  | envelope | magicHeader | version | events | record | tag _ | argument _ => true

/-- From `state`, the tokens are accepted to the end and yield the events. -/
inductive Script : DecodeState → List Token → List Event → Prop
  | ended : Script .ended [] []
  | header {state state' : DecodeState} {header : Header} {event : Option Event}
      {tokens : List Token} {events : List Event} : state.reads = true → header.Encodable →
      accept state header = .ok (state', event) → Script state' tokens events →
      Script state (.header header :: tokens) (event.toList ++ events)
  | magic {matched : Nat} {tokens : List Token} {events : List Event} : matched < magic.length →
      Script .version tokens events →
      Script (.magic matched) (.raw (magic.drop matched) :: tokens) events
  | data {bytes : List UInt8} {tokens : List Token} {events : List Event} : bytes ≠ [] →
      Script .record tokens events →
      Script (.data bytes.length) (.raw bytes :: tokens) (.data bytes :: events)

/-! ### The script of a text -/

def recordTokens (event : Event) : List Token :=
  .header (.array (some (if (recordFields event).2.isSome then 2 else 1))) ::
    .header (.positive (recordFields event).1) ::
    ((recordFields event).2.map Token.header).toList ++
    (if payload event = [] then [] else [.raw (payload event)])

theorem recordTokens_bytes (event : Event) :
    tokenBytes codec (recordTokens event) = recordText codec event := by
  have hp : tokenBytes codec (if payload event = [] then [] else [.raw (payload event)]) =
      payload event := by
    split
    next h => exact h.symm
    next => exact append_nil _
  unfold tokenBytes at *
  rw [recordTokens, recordText, headerText, flatMap_append, hp]
  cases (recordFields event).2 <;> simp [Token.bytes]

variable {codec} {tokens : List Token} {events : List Event} {state state' : DecodeState}
  {header : Header} {event : Event} {tag : UInt64}

theorem Script.skip (hr : state.reads = true)
    (ha : accept state header = .ok (state', none)) (he : header.Encodable)
    (h : Script state' tokens events) : Script state (.header header :: tokens) events :=
  .header hr he ha h

theorem Script.emit
    (hr : state.reads = true) (ha : accept state header = .ok (state', some event))
    (he : header.Encodable) (h : Script state' tokens events) :
    Script state (.header header :: tokens) (event :: events) :=
  .header hr he ha h

theorem encodable_array {n : Nat} (h : n < 24) : Header.Encodable (.array (some n)) :=
  le_u64Max_of_small h

theorem script_plain {atom : Atom} (ha : recordArity tag = .ok 1)
    (hat : plainAtom tag = .ok atom) (h : Script .record tokens events) :
    Script .record (.header (.array (some 1)) :: .header (.positive tag) :: tokens)
      (.atom atom :: events) := by
  have ht : accept (.tag 1) (.positive tag) = .ok (.record, some (.atom atom)) := by
    simp [accept, ha, hat, Except.map]
  exact .skip rfl rfl (encodable_array (by decide)) (.emit rfl ht trivial h)

theorem script_argument (ha : recordArity tag = .ok 2)
    (h : Script (.argument tag) tokens events) :
    Script .record (.header (.array (some 2)) :: .header (.positive tag) :: tokens) events := by
  have ht : accept (.tag 2) (.positive tag) = .ok (.argument tag, none) := by
    simp [accept, ha]
  exact .skip rfl rfl (encodable_array (by decide)) (.skip rfl ht trivial h)

theorem argument_i64 (value : Int64) :
    argument 5 (i64Header value) = .ok (.record, some (.atom (.i64 value))) := by
  unfold i64Header
  split
  next h => simp [argument, i64TryFrom_of_nonneg h, Except.map]
  next h => simp [argument, i64TryFrom_of_neg h, Except.map]

theorem argument_data {n : Nat} (hpos : n ≠ 0) (hle : n ≤ u32Max) :
    argument 13 (.bytes (some n)) = .ok (.data n, none) := by
  have hm : ¬ maxDataRecordBytes < n := Nat.not_lt.mpr hle
  simp [argument, hm, hpos]

theorem script_record (hl : (payload event).length ≤ u32Max)
    (h : Script .record tokens events) :
    Script .record (recordTokens event ++ tokens) (event :: events) := by
  have he := argument_encodable event
  cases event with
  | begin_ kind =>
    exact script_argument rfl (.emit rfl (by cases kind <;> rfl) trivial h)
  | end_ kind =>
    exact script_argument rfl (.emit rfl (by cases kind <;> rfl) trivial h)
  | atom atom =>
    cases atom with
    | null | author | model | streamDone => exact script_plain rfl rfl h
    | bool b => cases b <;> exact script_plain rfl rfl h
    | i64 value => exact script_argument rfl (.emit rfl (argument_i64 value) (he _ rfl) h)
    | f64Bits _ | u64 _ => exact script_argument rfl (.emit rfl rfl trivial h)
    | dtype dtype =>
      exact script_argument rfl (.emit rfl (by cases dtype <;> rfl) trivial h)
    | frameKind kind =>
      exact script_argument rfl (.emit rfl (by cases kind <;> rfl) trivial h)
  | data data =>
    by_cases hne : data = []
    · subst hne
      exact script_argument rfl (.emit rfl rfl (he _ rfl) h)
    · have hc : dataChunkLen data.length = data.length := Nat.min_eq_left hl
      have ht : recordTokens (.data data) ++ tokens =
          .header (.array (some 2)) :: .header (.positive 13) ::
            .header (.bytes (some data.length)) :: .raw data :: tokens := by
        simp [recordTokens, recordFields, payload, hc, hne]
      have hen : Header.Encodable (.bytes (some data.length)) := hc ▸ dataChunkLen_le data.length
      rw [ht]
      exact script_argument rfl
        (.skip rfl (argument_data (mt length_eq_zero_iff.mp hne) hl) hen (.data hne h))

def recordsTokens (events : List Event) : List Token :=
  events.flatMap recordTokens ++ [.header .break_]

theorem script_records (hl : ∀ event ∈ events, (payload event).length ≤ u32Max) :
    Script .record (recordsTokens events) events := by
  induction events with
  | nil => exact .skip rfl rfl trivial .ended
  | cons event events ih =>
    obtain ⟨hev, he⟩ := forall_mem_cons.mp hl
    have ht : recordsTokens (event :: events) = recordTokens event ++ recordsTokens events := by
      simp [recordsTokens]
    rw [ht]
    exact script_record hev (ih he)

def envelopeTokens : List Token :=
  [.header (.array (some 3)), .header (.bytes (some magic.length)), .raw magic,
    .header (.positive version), .header (.array none)]

theorem script_envelope
    (h : Script .record tokens events) : Script .envelope (envelopeTokens ++ tokens) events := by
  have hm : Header.Encodable (.bytes (some magic.length)) := le_u64Max_of_small (by decide)
  have ha : accept .version (.positive version) = .ok (.events, none) := by simp [accept]
  have hl : accept .magicHeader (.bytes (some magic.length)) = .ok (.magic 0, none) := by
    simp [accept]
  have hv : Script .version (.header (.positive version) :: .header (.array none) :: tokens)
      events := .skip rfl ha trivial (.skip rfl rfl trivial h)
  have hb : Script (.magic 0) (.raw (magic.drop 0) :: .header (.positive version) ::
      .header (.array none) :: tokens) events := .magic (by decide) hv
  exact .skip rfl rfl (encodable_array (by decide)) (.skip rfl hl hm hb)

theorem chunks_le (data : List UInt8) : ∀ chunk ∈ chunks data, chunk.length ≤ u32Max := by
  fun_induction chunks data with
  | case1 data h => exact forall_mem_singleton.mpr h
  | case2 data h ih =>
    refine forall_mem_cons.mpr ⟨?_, ih⟩
    rw [length_take]
    exact Nat.min_le_left _ _

theorem records_le (event : Event) :
    ∀ record ∈ records event, (payload record).length ≤ u32Max := by
  cases event with
  | data data =>
    intro record hr
    obtain ⟨chunk, hc, rfl⟩ := mem_map.mp hr
    exact chunks_le data chunk hc
  | begin_ _ | end_ _ | atom _ => exact forall_mem_singleton.mpr (Nat.zero_le _)

theorem script_text (events : List Event) :
    Script .envelope (envelopeTokens ++ recordsTokens (events.flatMap records))
      (events.flatMap records) := by
  refine script_envelope (script_records fun record hr => ?_)
  obtain ⟨event, -, hm⟩ := mem_flatMap.mp hr
  exact records_le event record hm

variable (codec) in
theorem tokenBytes_text (events : List Event) :
    tokenBytes codec (envelopeTokens ++ recordsTokens (events.flatMap records)) =
      text codec events := by
  have hr : tokenBytes codec ((events.flatMap records).flatMap recordTokens) =
      events.flatMap (eventText codec) := by
    rw [tokenBytes, flatMap_assoc, flatMap_assoc]
    congr 1
    funext event
    rw [eventText]
    congr 1
    funext record
    exact recordTokens_bytes codec record
  unfold tokenBytes at *
  rw [recordsTokens, flatMap_append, flatMap_append, hr, text]
  simp [envelopeTokens, envelopeText, Token.bytes]

end Xolotl.Codec
