import Xolotl.Codec.Framing

/-! The resumable event encoder. Output buffers are given by their sizes; each call returns
the bytes it wrote. -/

namespace Xolotl.Codec

open Xolotl.Types List Word

variable (codec : HeaderCodec)

def envelopeBytes : Nat := magic.length + 4

def recordHeaderBytes : Nat := 11

/-! ## Record headers -/

def encodeHeaders (headers : List Header) (capacity : Nat) : Except ErrorKind (List UInt8) :=
  if (headers.flatMap codec.push).length ≤ capacity then .ok (headers.flatMap codec.push)
  else .error .headerEncoding

def prepareEnvelope : Except ErrorKind (List UInt8) :=
  let bytes := codec.push (.array (some 3)) ++ (codec.push (.bytes (some magic.length)) ++ magic) ++
    codec.push (.positive version) ++ codec.push (.array none)
  if bytes.length ≤ envelopeBytes then
    .ok (bytes ++ List.replicate (envelopeBytes - bytes.length) 0)
  else .error .headerEncoding

namespace RecordHeader

def new (id : UInt64) (argument : Option Header) : Except ErrorKind (List UInt8) := do
  let arity := if argument.isSome then 2 else 1
  let bytes ← encodeHeaders codec [.array (some arity), .positive id] recordHeaderBytes
  match argument with
  | some argument =>
    return bytes ++ (← encodeHeaders codec [argument] (recordHeaderBytes - bytes.length))
  | none => return bytes

def data (bytes : Nat) : Except ErrorKind (List UInt8) := new codec 13 (some (.bytes (some bytes)))

end RecordHeader

def dataChunkLen (bytes : Nat) : Nat := min bytes u32Max

def recordFields : Event → UInt64 × Option Header
  | .begin_ kind => (0, some (.positive (kindId kind)))
  | .end_ kind => (1, some (.positive (kindId kind)))
  | .atom .null => (2, none)
  | .atom (.bool false) => (3, none)
  | .atom (.bool true) => (4, none)
  | .atom (.i64 value) => (5, some (i64Header value))
  | .atom (.f64Bits bits) => (6, some (.positive bits))
  | .atom (.u64 value) => (7, some (.positive value))
  | .atom (.dtype dtype) => (8, some (.positive (dtypeId dtype)))
  | .atom (.frameKind kind) => (9, some (.positive (frameKindId kind)))
  | .atom .author => (10, none)
  | .atom .model => (11, none)
  | .atom .streamDone => (12, none)
  | .data data => (13, some (.bytes (some (dataChunkLen data.length))))

def RecordHeader.event (event : Event) : Except ErrorKind (List UInt8) :=
  RecordHeader.new codec (recordFields event).1 (recordFields event).2

/-! ## The encoder -/

inductive EncoderState
  | open_ | active | finishing | finished
  deriving DecidableEq

structure FrameEncoder where
  envelope : List UInt8
  envelopePrepared : Bool
  envelopeWritten : Nat
  state : EncoderState
  offset : Nat
  error : Option Error

namespace FrameEncoder

def new : FrameEncoder := ⟨List.replicate envelopeBytes 0, false, 0, .open_, 0, none⟩

variable (enc : FrameEncoder)

def fail (kind : ErrorKind) : Error × FrameEncoder :=
  let error := enc.error.getD ⟨enc.offset, kind⟩
  (error, { enc with error := some error })

def failing {α : Type*} (enc : FrameEncoder) (kind : ErrorKind) : Except Error α × FrameEncoder :=
  (.error (enc.fail kind).1, (enc.fail kind).2)

def writeBytes (bytes : List UInt8) (room : Nat) : Except Error (List UInt8) × FrameEncoder :=
  let count := min bytes.length room
  match advanceOffset enc.offset count with
  | .error kind => enc.failing kind
  | .ok offset => (.ok (bytes.take count), { enc with offset })

def prepare : Except ErrorKind FrameEncoder :=
  if enc.envelopePrepared then .ok enc
  else (prepareEnvelope codec).map fun bytes =>
    { enc with envelope := bytes, envelopePrepared := true }

def writeEnvelope (room : Nat) : Except Error (List UInt8) × FrameEncoder :=
  match enc.prepare codec with
  | .error kind => enc.failing kind
  | .ok enc =>
    let count := min room (envelopeBytes - enc.envelopeWritten)
    match advanceOffset enc.offset count with
    | .error kind => enc.failing kind
    | .ok offset =>
      (.ok ((enc.envelope.drop enc.envelopeWritten).take count),
        { enc with offset, envelopeWritten := enc.envelopeWritten + count })

def isComplete : Bool := enc.state = .finished && enc.error.isNone

def bytesWritten : Nat := enc.offset

end FrameEncoder

/-! ## Writing one event -/

structure EventWriter where
  header : List UInt8
  headerWritten : Nat
  data : Option (List UInt8)
  chunkRemaining : Nat
  complete : Bool

namespace FrameEncoder

def startEvent (enc : FrameEncoder) (event : Event) : Except Error EventWriter × FrameEncoder :=
  match enc.error with
  | some error => (.error error, enc)
  | none =>
    match enc.state with
    | .active => enc.failing .incompleteEvent
    | .finishing | .finished => enc.failing .closed
    | .open_ =>
      match RecordHeader.event codec event with
      | .error kind => enc.failing kind
      | .ok header =>
        let writer := match event with
          | .data data => ⟨header, 0, some data, dataChunkLen data.length, false⟩
          | _ => ⟨header, 0, none, 0, false⟩
        (.ok writer, { enc with state := .active })

/-- The last part of `finish`: the envelope, if no event has written it, and the break. -/
def writeEnding (enc : FrameEncoder) (room : Nat) : Except Error (List UInt8) × FrameEncoder :=
  match writeEnvelope codec enc room with
  | (.error error, enc) => (.error error, enc)
  | (.ok written, enc) =>
    if written.length = room then (.ok written, enc)
    else
      match encodeHeaders codec [.break_] 1 with
      | .error kind => enc.failing kind
      | .ok ending =>
        match enc.writeBytes ending (room - written.length) with
        | (.error error, enc) => (.error error, enc)
        | (.ok bytes, enc) => (.ok (written ++ bytes), { enc with state := .finished })

def finish (enc : FrameEncoder) (room : Nat) : Except Error (List UInt8) × FrameEncoder :=
  match enc.error with
  | some error => (.error error, enc)
  | none =>
    match enc.state with
    | .active => enc.failing .incompleteEvent
    | .finished => (.ok [], enc)
    | .open_ | .finishing => writeEnding codec { enc with state := .finishing } room

end FrameEncoder

namespace EventWriter

/-- The second part of a turn of `write`, after the record header: the payload. What is left
of a data field goes on in `again`. -/
def writePayload (again : FrameEncoder → EventWriter → Nat → List UInt8 →
      Except Error (List UInt8) × FrameEncoder × EventWriter)
    (enc : FrameEncoder) (w : EventWriter) (room : Nat) (written : List UInt8) :
    Except Error (List UInt8) × FrameEncoder × EventWriter :=
  match w.data with
  | none => (.ok written, { enc with state := .open_ }, { w with complete := true })
  | some data =>
    match enc.writeBytes (data.take w.chunkRemaining) room with
    | (.error error, enc) => (.error error, enc, w)
    | (.ok bytes, enc) =>
      let w := { w with
        data := some (data.drop bytes.length)
        chunkRemaining := w.chunkRemaining - bytes.length }
      let written := written ++ bytes
      let room := room - bytes.length
      if w.chunkRemaining ≠ 0 then (.ok written, enc, w)
      else if bytes.length ≠ data.length then
        let next := dataChunkLen (data.length - bytes.length)
        match RecordHeader.data codec next with
        | .error kind => (.error (enc.fail kind).1, (enc.fail kind).2, w)
        | .ok header =>
          again enc { w with header, headerWritten := 0, chunkRemaining := next } room written
      else (.ok written, { enc with state := .open_ }, { w with complete := true })

/-- The loop of `write`: the header and the payload of one record after the other. A data
field takes one turn for each record it is cut into. -/
def writeRecords : Nat → FrameEncoder → EventWriter → Nat → List UInt8 →
    Except Error (List UInt8) × FrameEncoder × EventWriter
  | 0, enc, w, _, written => (.ok written, enc, w)
  | turns + 1, enc, w, room, written =>
    match enc.writeBytes (w.header.drop w.headerWritten) room with
    | (.error error, enc) => (.error error, enc, w)
    | (.ok bytes, enc) =>
      let w := { w with headerWritten := w.headerWritten + bytes.length }
      let written := written ++ bytes
      let room := room - bytes.length
      if w.headerWritten ≠ w.header.length then (.ok written, enc, w)
      else writePayload codec (writeRecords turns) enc w room written

def write (enc : FrameEncoder) (w : EventWriter) (room : Nat) :
    Except Error (List UInt8) × FrameEncoder × EventWriter :=
  match enc.error with
  | some error => (.error error, enc, w)
  | none =>
    if w.complete then (.ok [], enc, w)
    else
      match enc.writeEnvelope codec room with
      | (.error error, enc) => (.error error, enc, w)
      | (.ok written, enc) =>
        writeRecords codec ((w.data.getD []).length + 1) enc w (room - written.length) written

end EventWriter

/-! ## The text -/

def envelopeText : List UInt8 :=
  codec.push (.array (some 3)) ++ (codec.push (.bytes (some magic.length)) ++ magic) ++
    codec.push (.positive version) ++ codec.push (.array none)

def headerText (id : UInt64) (argument : Option Header) : List UInt8 :=
  codec.push (.array (some (if argument.isSome then 2 else 1))) ++ codec.push (.positive id) ++
    (argument.map codec.push).getD []

def payload : Event → List UInt8
  | .data data => data
  | _ => []

variable (event : Event)

def recordText : List UInt8 :=
  headerText codec (recordFields event).1 (recordFields event).2 ++ payload event

def chunks (data : List UInt8) : List (List UInt8) :=
  if _h : data.length ≤ u32Max then [data]
  else data.take u32Max :: chunks (data.drop u32Max)
termination_by data.length
decreasing_by
  rw [length_drop]
  have : 0 < u32Max := by decide
  omega

def records : Event → List Event
  | .data data => (chunks data).map .data
  | event => [event]

def eventText : List UInt8 := (records event).flatMap (recordText codec)

def text (events : List Event) : List UInt8 :=
  envelopeText codec ++ events.flatMap (eventText codec) ++ codec.push .break_

variable {codec}

theorem length_push_positive {n : UInt64} (h : n.toNat < 24) :
    (codec.push (.positive n)).length = 1 :=
  (codec.length_push (.positive n) trivial).trans (if_pos h)

variable {n : Nat}

theorem le_u64Max_of_small (h : n < 24) : n ≤ u64Max := Nat.le_trans (Nat.le_of_lt h) (by decide)

theorem length_push_array (h : n < 24) : (codec.push (.array (some n))).length = 1 :=
  (codec.length_push (.array (some n)) (le_u64Max_of_small h)).trans (if_pos h)

theorem length_push_bytes (h : n < 24) : (codec.push (.bytes (some n))).length = 1 :=
  (codec.length_push (.bytes (some n)) (le_u64Max_of_small h)).trans (if_pos h)

theorem argumentBytes_le (n : Nat) : argumentBytes n ≤ 9 := by
  unfold argumentBytes
  repeat' split
  all_goals decide

theorem length_push_le {h : Header} (he : h.Encodable) : (codec.push h).length ≤ 9 := by
  rw [codec.length_push h he]
  cases h with
  | positive n | negative n => exact argumentBytes_le _
  | bytes len | array len =>
    cases len with
    | none => decide
    | some len => exact argumentBytes_le _
  | break_ | other => decide

variable (codec) in
theorem length_envelopeText : (envelopeText codec).length = envelopeBytes := by
  have ha : (codec.push (.array (some 3))).length = 1 := length_push_array (by decide)
  have hm : (codec.push (.bytes (some magic.length))).length = 1 := length_push_bytes (by decide)
  have hv : (codec.push (.positive version)).length = 1 := length_push_positive (by decide)
  have he : (codec.push (.array none)).length = 1 := codec.length_push (.array none) trivial
  simp only [envelopeText, length_append, ha, hm, hv, he]
  rfl

theorem prepareEnvelope_eq : prepareEnvelope codec = .ok (envelopeText codec) := by
  have hl := length_envelopeText codec
  unfold envelopeText at hl
  rw [prepareEnvelope, hl]
  exact congrArg Except.ok (append_nil _)

theorem encodeHeaders_eq {headers : List Header} {capacity : Nat}
    (h : (headers.flatMap codec.push).length ≤ capacity) :
    encodeHeaders codec headers capacity = .ok (headers.flatMap codec.push) := if_pos h

theorem RecordHeader.new_eq {id : UInt64} (hid : id.toNat < 24) {argument : Option Header}
    (he : ∀ h ∈ argument, h.Encodable) :
    RecordHeader.new codec id argument = .ok (headerText codec id argument) := by
  have ha : (if argument.isSome then 2 else 1) < 24 := by split <;> decide
  have hl : ([Header.array (some (if argument.isSome then 2 else 1)),
      .positive id].flatMap codec.push).length = 2 := by
    simp [length_push_array ha, length_push_positive hid]
  have hfi : ([Header.array (some (if argument.isSome then 2 else 1)),
      .positive id].flatMap codec.push).length ≤ recordHeaderBytes := by
    rw [hl]
    decide
  have hf := encodeHeaders_eq hfi
  unfold RecordHeader.new
  simp only [hf, bind, Except.bind, pure, Except.pure]
  cases argument with
  | none => simp [headerText]
  | some argument =>
    have har : ([argument].flatMap codec.push).length ≤ recordHeaderBytes - 2 := by
      rw [flatMap_singleton]
      exact length_push_le (he argument rfl)
    simp only [hl, encodeHeaders_eq har]
    simp [headerText]

theorem RecordHeader.data_eq (h : n ≤ u64Max) :
    RecordHeader.data codec n = .ok (headerText codec 13 (some (.bytes (some n)))) :=
  new_eq (by decide) fun _ hh => Option.some.inj hh ▸ h

theorem dataChunkLen_le (n : Nat) : dataChunkLen n ≤ u64Max :=
  Nat.le_trans (Nat.min_le_right _ _) (by decide)

theorem recordId_small : (recordFields event).1.toNat < 24 := by
  cases event with
  | begin_ _ | end_ _ | data _ => exact of_decide_eq_true rfl
  | atom atom =>
    cases atom with
    | bool b => cases b <;> exact of_decide_eq_true rfl
    | _ => exact of_decide_eq_true rfl

theorem argument_encodable : ∀ h ∈ (recordFields event).2, h.Encodable := by
  cases event with
  | begin_ _ | end_ _ => exact fun h hh => Option.some.inj hh ▸ trivial
  | data data => exact fun h hh => Option.some.inj hh ▸ dataChunkLen_le data.length
  | atom atom =>
    cases atom with
    | null | author | model | streamDone => exact nofun
    | bool b => cases b <;> exact nofun
    | f64Bits _ | u64 _ | dtype _ | frameKind _ => exact fun h hh => Option.some.inj hh ▸ trivial
    | i64 value =>
      refine fun h hh => Option.some.inj hh ▸ ?_
      unfold i64Header
      split <;> trivial

/-! ## Writing -/

namespace FrameEncoder

variable (enc : FrameEncoder)

def Fits (bytes : List UInt8) : Prop :=
  enc.offset + bytes.length ≤ u64Max

def wrote (bytes : List UInt8) : FrameEncoder :=
  { enc with offset := enc.offset + bytes.length }

def Overflowed (error : Error) : Prop :=
  error.kind = .offsetOverflow ∧ enc.error = some error

/-- A call writes `bytes`, unless the byte counter overflows. -/
inductive Emits {σ : Type} (encoder : σ → FrameEncoder) (enc : FrameEncoder) (bytes : List UInt8)
    (Next : σ → Prop) : Except Error (List UInt8) × σ → Prop
  | ok {s : σ} : enc.Fits bytes → Next s → Emits encoder enc bytes Next (.ok bytes, s)
  | error {e : Error} {s : σ} : ¬ enc.Fits bytes → (encoder s).Overflowed e →
      Emits encoder enc bytes Next (.error e, s)

variable {enc : FrameEncoder} {bytes a b : List UInt8} {room : Nat}

theorem emits_failing {enc' : FrameEncoder} {Next : FrameEncoder → Prop} (h : enc'.error = none)
    (hf : ¬ enc.Fits bytes) : Emits id enc bytes Next (enc'.failing .offsetOverflow) := by
  refine .error hf ⟨?_, rfl⟩
  simp [fail, h]

theorem writeBytes_spec (h : enc.error = none) (bytes : List UInt8) (room : Nat) :
    Emits id enc (bytes.take room) (· = enc.wrote (bytes.take room))
      (enc.writeBytes bytes room) := by
  have hl : min bytes.length room = (bytes.take room).length := by
    rw [length_take, Nat.min_comm]
  have ht : bytes.take (bytes.take room).length = bytes.take room := by
    rw [length_take, ← take_take, take_length]
  by_cases hf : enc.Fits (bytes.take room)
  · simp only [writeBytes, hl, ht, advanceOffset_ok hf]
    exact .ok hf rfl
  · simp only [writeBytes, hl, advanceOffset_error hf]
    exact emits_failing h hf

theorem drop_length_take (text : List UInt8) (room : Nat) :
    text.drop (text.take room).length = text.drop room := by
  rw [length_take]
  rcases Nat.le_total room text.length with h | h
  · rw [Nat.min_eq_left h]
  · rw [Nat.min_eq_right h, drop_length, drop_eq_nil_of_le h]

theorem wrote_append (enc : FrameEncoder) (a b : List UInt8) :
    (enc.wrote a).wrote b = enc.wrote (a ++ b) := by
  simp [wrote, Nat.add_assoc]

theorem fits_append : enc.Fits (a ++ b) ↔ (enc.wrote a).Fits b := by
  simp [Fits, wrote, Nat.add_assoc]

theorem Fits.front (h : enc.Fits ((a ++ b).take room)) : enc.Fits (a.take room) := by
  unfold Fits at h ⊢
  rw [take_append, length_append] at h
  omega

end FrameEncoder

variable (codec) in
def moreText (data : List UInt8) : List UInt8 :=
  if data = [] then [] else eventText codec (.data data)

theorem eventText_data (data : List UInt8) : eventText codec (.data data) =
      headerText codec 13 (some (.bytes (some (dataChunkLen data.length)))) ++
        (data.take (dataChunkLen data.length) ++
          moreText codec (data.drop (dataChunkLen data.length))) := by
  change ((chunks data).map Event.data).flatMap (recordText codec) = _
  rw [chunks]
  split
  next hle =>
    have hc : dataChunkLen data.length = data.length := Nat.min_eq_left hle
    simp [recordText, recordFields, payload, hc, moreText]
  next hgt =>
    have hc : dataChunkLen data.length = u32Max :=
      Nat.min_eq_right (Nat.le_of_lt (Nat.lt_of_not_le hgt))
    have ht : (data.take u32Max).length = u32Max := by
      rw [length_take]
      omega
    have hd : data.drop u32Max ≠ [] := by
      intro h
      exact hgt (drop_eq_nil_iff.mp h)
    have hs : dataChunkLen u32Max = u32Max := Nat.min_self _
    simp [recordText, recordFields, payload, hc, moreText, hd, ht, hs, eventText, records]

namespace EventWriter

variable (codec) in
/-- The bytes of the payload still to be written, with the headers of later records. -/
def payloadPending (w : EventWriter) : List UInt8 :=
  match w.data with
  | none => []
  | some data => data.take w.chunkRemaining ++ moreText codec (data.drop w.chunkRemaining)

variable (codec) in
def pending (w : EventWriter) : List UInt8 :=
  if w.complete then [] else w.header.drop w.headerWritten ++ w.payloadPending codec

structure Busy (w : EventWriter) : Prop where
  incomplete : w.complete = false
  chunk_le : ∀ data ∈ w.data, w.chunkRemaining ≤ data.length
  chunk_pos : ∀ data ∈ w.data, data ≠ [] → 0 < w.chunkRemaining
  left : w.headerWritten < w.header.length ∨
    w.headerWritten = w.header.length ∧ ∃ data ∈ w.data, data ≠ []

variable (codec) in
theorem Busy.pending_eq {w : EventWriter} (h : Busy w) :
    w.pending codec = w.header.drop w.headerWritten ++ w.payloadPending codec := by
  rw [pending, h.incomplete]
  rfl

theorem Busy.pending_ne_nil {w : EventWriter} (h : Busy w) : w.pending codec ≠ [] := by
  rw [h.pending_eq]
  rcases h.left with hlt | ⟨-, data, hd, hne⟩
  · refine append_ne_nil_of_left_ne_nil (ne_nil_of_length_pos ?_) _
    rw [length_drop]
    omega
  · refine append_ne_nil_of_right_ne_nil _ ?_
    rw [payloadPending, hd]
    refine append_ne_nil_of_left_ne_nil (ne_nil_of_length_pos ?_) _
    rw [length_take]
    exact Nat.lt_min.mpr ⟨h.chunk_pos data hd hne, length_pos_iff.mpr hne⟩

def release (enc : FrameEncoder) (w : EventWriter) : FrameEncoder :=
  if w.complete then { enc with state := .open_ } else enc

variable (codec) in
/-- What a call with a buffer of `room` bytes leaves to write. -/
structure Leaves (w w' : EventWriter) (room : Nat) : Prop where
  pending : w'.pending codec = (w.pending codec).drop room
  state : (w'.complete = true ∧ (w.pending codec).length ≤ room) ∨
    (Busy w' ∧ room < (w.pending codec).length)

variable (codec) in
inductive Written (enc : FrameEncoder) (w : EventWriter) (room : Nat) (written : List UInt8) :
    Except Error (List UInt8) × FrameEncoder × EventWriter → Prop
  | ok {w' : EventWriter} : enc.Fits ((w.pending codec).take room) → Leaves codec w w' room →
      Written enc w room written (.ok (written ++ (w.pending codec).take room),
        release (enc.wrote ((w.pending codec).take room)) w', w')
  | error {e : Error} {enc' : FrameEncoder} {w' : EventWriter} :
      ¬ enc.Fits ((w.pending codec).take room) → enc'.Overflowed e →
      Written enc w room written (.error e, enc', w')

variable {enc : FrameEncoder} {room : Nat} {written : List UInt8}

theorem Written.of_eq {enc' : FrameEncoder} {w w' : EventWriter}
    {out : List UInt8} (hf : enc.Fits ((w.pending codec).take room))
    (hl : Leaves codec w w' room) (ho : out = written ++ (w.pending codec).take room)
    (he : enc' = release (enc.wrote ((w.pending codec).take room)) w') :
    Written codec enc w room written (.ok out, enc', w') := by
  rw [ho, he]
  exact .ok hf hl

theorem Written.part {w w' : EventWriter} {front rest : List UInt8}
    (hp : w.pending codec = front ++ rest) (hr : room < front.length)
    (hf : enc.Fits (front.take room)) (hb : Busy w')
    (hre : w'.pending codec = front.drop room ++ rest) : Written codec enc w room written
      (.ok (written ++ front.take room), enc.wrote (front.take room), w') := by
  have ht : (w.pending codec).take room = front.take room := by
    rw [hp, take_append_of_le_length (Nat.le_of_lt hr)]
  rw [← ht] at hf ⊢
  refine .of_eq hf ⟨?_, .inr ⟨hb, ?_⟩⟩ rfl ?_
  · rw [hre, hp, drop_append_of_le_length (Nat.le_of_lt hr)]
  · rw [hp, length_append]
    omega
  · rw [release, hb.incomplete]
    rfl

theorem Written.after {w v : EventWriter} {front : List UInt8} {count : Nat}
    {r : Except Error (List UInt8) × FrameEncoder × EventWriter}
    (hf : w.pending codec = front ++ v.pending codec) (hc : front.length = count)
    (hr : count ≤ room)
    (h : Written codec (enc.wrote front) v (room - count) (written ++ front) r) :
    Written codec enc w room written r := by
  subst hc
  have ht : (w.pending codec).take room =
      front ++ (v.pending codec).take (room - front.length) := by
    rw [hf, take_append, take_of_length_le hr]
  cases h with
  | ok hfi hl =>
    refine .of_eq ?_ ⟨?_, ?_⟩ ?_ ?_
    · rw [ht]
      exact FrameEncoder.fits_append.mpr hfi
    · rw [hl.pending, hf, drop_append, drop_eq_nil_of_le hr, nil_append]
    · rw [hf, length_append]
      exact hl.state.imp (fun h => ⟨h.1, by omega⟩) fun h => ⟨h.1, by omega⟩
    · rw [ht, append_assoc]
    · rw [ht, FrameEncoder.wrote_append]
  | error hfi ho =>
    refine .error (fun h => hfi ?_) ho
    rw [ht] at h
    exact FrameEncoder.fits_append.mp h

theorem Written.done {w : EventWriter} (hp : w.pending codec = []) (hf : enc.Fits []) :
    Written codec enc w room written
      (.ok written, { enc with state := .open_ }, { w with complete := true }) := by
  refine .of_eq ?_ ⟨?_, .inl ⟨rfl, ?_⟩⟩ ?_ ?_ <;> rw [hp]
  · rw [take_nil]
    exact hf
  · rw [drop_nil]
    rfl
  · exact Nat.zero_le room
  · rw [take_nil, append_nil]
  · rw [take_nil]
    rfl

section Next

variable {w : EventWriter} {rest : List UInt8}

variable (codec) in
def next (w : EventWriter) (rest : List UInt8) : EventWriter :=
  { w with
    header := headerText codec 13 (some (.bytes (some (dataChunkLen rest.length))))
    headerWritten := 0
    data := some rest
    chunkRemaining := dataChunkLen rest.length }

theorem pending_next (hi : w.complete = false) (hne : rest ≠ []) :
    pending codec (next codec w rest) = moreText codec rest := by
  rw [moreText, if_neg hne, eventText_data]
  simp [pending, next, hi, payloadPending]

theorem busy_next (hi : w.complete = false) (hne : rest ≠ []) : Busy (next codec w rest) := by
  have hpos : 0 < rest.length := length_pos_iff.mpr hne
  refine ⟨hi, ?_, ?_, .inl ?_⟩
  · rintro _ ⟨⟩
    exact Nat.min_le_left _ _
  · exact fun _ _ _ => Nat.lt_min.mpr ⟨hpos, by decide⟩
  · have ha : (codec.push (.array (some 2))).length = 1 := length_push_array (by decide)
    simp only [next, headerText, length_append, Option.isSome_some, if_true]
    omega

end Next

theorem written_payload (he : enc.error = none) {w : EventWriter}
    (hi : w.complete = false) (hh : w.headerWritten = w.header.length)
    (hle : ∀ data ∈ w.data, w.chunkRemaining ≤ data.length)
    (hpos : ∀ data ∈ w.data, data ≠ [] → 0 < w.chunkRemaining) (hf : enc.Fits [])
    {again : FrameEncoder → EventWriter → Nat → List UInt8 →
      Except Error (List UInt8) × FrameEncoder × EventWriter}
    (ha : ∀ (enc : FrameEncoder) (v : EventWriter) room written, enc.error = none → Busy v →
      (v.data.getD []).length < (w.data.getD []).length →
      Written codec enc v room written (again enc v room written))
    (room : Nat) (written : List UInt8) :
    Written codec enc w room written (writePayload codec again enc w room written) := by
  have hp : w.pending codec = w.payloadPending codec := by
    simp [pending, hi, hh]
  unfold writePayload
  split
  next hd =>
    refine .done ?_ hf
    rw [hp, payloadPending, hd]
  next data hd =>
    have hc := hle data hd
    have hpa : w.pending codec =
        data.take w.chunkRemaining ++ moreText codec (data.drop w.chunkRemaining) := by
      rw [hp, payloadPending, hd]
    have hl : (data.take w.chunkRemaining).length = w.chunkRemaining := length_take_of_le hc
    have hw := FrameEncoder.writeBytes_spec he (data.take w.chunkRemaining) room
    generalize enc.writeBytes (data.take w.chunkRemaining) room = r at hw
    cases hw with
    | error hf' ho => exact .error (fun h => hf' (hpa ▸ h).front) ho
    | ok hf' hn =>
      subst hn
      dsimp only
      rcases Nat.lt_or_ge room w.chunkRemaining with hr | hr
      · have hcn : ((data.take w.chunkRemaining).take room).length = room := by
          rw [length_take, hl, Nat.min_eq_left (Nat.le_of_lt hr)]
        have hne : data.drop room ≠ [] := ne_nil_of_length_pos (by rw [length_drop]; omega)
        rw [hcn, if_pos (by omega)]
        refine .part hpa (by rwa [hl]) hf' ⟨hi, ?_, ?_, .inr ⟨hh, _, rfl, hne⟩⟩ ?_
        · rintro _ ⟨⟩
          rw [length_drop]
          exact Nat.sub_le_sub_right hc room
        · exact fun _ _ _ => Nat.sub_pos_of_lt hr
        · rw [drop_take]
          simp [pending, hi, hh, payloadPending, Nat.add_sub_cancel' (Nat.le_of_lt hr)]
      · rw [take_of_length_le (by omega)] at hf' ⊢
        rw [hl, if_neg (by omega), Nat.sub_eq_zero_of_le (Nat.le_refl _)]
        split
        next hm =>
          have hlt : w.chunkRemaining < data.length := Nat.lt_of_le_of_ne hc hm
          have hne : data ≠ [] := ne_nil_of_length_pos (Nat.zero_lt_of_lt hlt)
          have hre : data.length - w.chunkRemaining = (data.drop w.chunkRemaining).length :=
            length_drop.symm
          have hdr : data.drop w.chunkRemaining ≠ [] := ne_nil_of_length_pos (by omega)
          rw [hre, RecordHeader.data_eq (dataChunkLen_le _)]
          refine .after (v := next codec w (data.drop w.chunkRemaining)) ?_ hl hr
            (ha _ _ _ _ he (busy_next hi hdr) ?_)
          · rw [hpa, pending_next hi hdr]
          · have := hpos data hd hne
            rw [hd]
            change (data.drop w.chunkRemaining).length < data.length
            omega
        next hlast =>
          have hnil : data.drop w.chunkRemaining = [] :=
            drop_eq_nil_of_le (Nat.le_of_eq (Decidable.not_not.mp hlast).symm)
          have hdo : pending codec { w with
              data := some (data.drop w.chunkRemaining)
              chunkRemaining := 0 } = [] := by
            simp [pending, hh, payloadPending, hnil, moreText]
          refine .after ?_ hl hr (.done hdo ?_)
          · rw [hdo, hpa, hnil]
            rfl
          · exact FrameEncoder.fits_append.mp (by rwa [append_nil])

variable (codec) in
theorem written_records {turns : Nat} (he : enc.error = none)
    {w : EventWriter} (hw : Busy w) (ht : (w.data.getD []).length < turns) (room : Nat)
    (written : List UInt8) :
    Written codec enc w room written (writeRecords codec turns enc w room written) := by
  induction turns generalizing enc w room written with
  | zero => exact absurd ht (Nat.not_lt_zero _)
  | succ turns ih =>
    have hp := hw.pending_eq codec
    have hle := length_drop (i := w.headerWritten) (l := w.header)
    have hl := hw.left
    rw [writeRecords]
    have hwr := FrameEncoder.writeBytes_spec he (w.header.drop w.headerWritten) room
    generalize enc.writeBytes (w.header.drop w.headerWritten) room = r at hwr ⊢
    cases hwr with
    | error hf ho => exact .error (fun h => hf (hp ▸ h).front) ho
    | ok hf hn =>
      subst hn
      dsimp only
      rcases Nat.lt_or_ge room (w.header.drop w.headerWritten).length with hr | hr
      · rw [if_pos (by rw [length_take]; omega)]
        refine .part hp hr hf ⟨hw.incomplete, hw.chunk_le, hw.chunk_pos, .inl ?_⟩ ?_
        · rw [length_take_of_le (Nat.le_of_lt hr)]
          dsimp only
          omega
        · rw [length_take_of_le (Nat.le_of_lt hr), drop_drop]
          simp [pending, hw.incomplete, payloadPending]
      · have ha : w.headerWritten + (w.header.drop w.headerWritten).length = w.header.length := by
          omega
        rw [if_neg (by rw [length_take]; omega)]
        rw [take_of_length_le hr] at hf ⊢
        rw [ha]
        refine .after (v := { w with headerWritten := w.header.length }) ?_ rfl hr ?_
        · rw [hp]
          simp [pending, payloadPending, hw.incomplete]
        apply written_payload
        · exact he
        · exact hw.incomplete
        · rfl
        · exact hw.chunk_le
        · exact hw.chunk_pos
        · exact FrameEncoder.fits_append.mp (by rwa [append_nil])
        · intro enc v room written he hv hlt
          exact ih he hv (Nat.lt_of_lt_of_le hlt (Nat.le_of_lt_succ ht)) room written

end EventWriter

/-! ## The envelope -/

namespace FrameEncoder

variable (codec) in
/-- The prepared envelope is the text's, and nothing is written before it is prepared. -/
structure Sound (enc : FrameEncoder) : Prop where
  prepared : enc.envelopePrepared = true → enc.envelope = envelopeText codec
  unprepared : enc.envelopePrepared = false → enc.envelopeWritten = 0
  written : enc.envelopeWritten ≤ envelopeBytes

theorem sound_new : Sound codec new := ⟨nofun, fun _ => rfl, Nat.zero_le _⟩

variable {enc : FrameEncoder}

theorem Sound.wrote (h : Sound codec enc) (bytes : List UInt8) :
    Sound codec (enc.wrote bytes) := ⟨h.prepared, h.unprepared, h.written⟩

variable (codec) in
def envelopePending (enc : FrameEncoder) : List UInt8 :=
  (envelopeText codec).drop enc.envelopeWritten

variable (codec) in
structure Enveloped (enc enc' : FrameEncoder) (room : Nat) : Prop where
  sound : Sound codec enc'
  pending : enc'.envelopePending codec = (enc.envelopePending codec).drop room
  offset : enc'.offset = enc.offset + ((enc.envelopePending codec).take room).length
  state : enc'.state = enc.state
  error : enc'.error = none

theorem prepare_spec (h : Sound codec enc) :
    enc.prepare codec =
      .ok { enc with envelope := envelopeText codec, envelopePrepared := true } := by
  unfold prepare
  split
  next hp => rw [← h.prepared hp, ← hp]
  next => rw [prepareEnvelope_eq]; rfl

theorem writeEnvelope_spec (he : enc.error = none) (h : Sound codec enc) (room : Nat) :
    Emits id enc ((enc.envelopePending codec).take room) (Enveloped codec enc · room)
      (enc.writeEnvelope codec room) := by
  have hl : (enc.envelopePending codec).length = envelopeBytes - enc.envelopeWritten := by
    rw [envelopePending, length_drop, length_envelopeText codec]
  have hc : min room (envelopeBytes - enc.envelopeWritten) =
      ((enc.envelopePending codec).take room).length := by
    rw [length_take, hl]
  have ht : (enc.envelopePending codec).take ((enc.envelopePending codec).take room).length =
      (enc.envelopePending codec).take room := by
    rw [length_take, ← take_take, take_length]
  by_cases hf : enc.Fits ((enc.envelopePending codec).take room)
  · simp only [writeEnvelope, prepare_spec h, hc, advanceOffset_ok hf]
    rw [show ((envelopeText codec).drop enc.envelopeWritten).take _ = _ from ht]
    refine .ok hf ⟨⟨fun _ => rfl, nofun, ?_⟩, ?_, rfl, rfl, he⟩
    · have := h.written
      simp only
      omega
    · simp only [envelopePending, ← drop_drop]
      exact drop_length_take _ _
  · simp only [writeEnvelope, prepare_spec h, hc, advanceOffset_error hf]
    exact emits_failing he hf

theorem Enveloped.offset_append {enc' : FrameEncoder} {room : Nat}
    (h : Enveloped codec enc enc' room) (rest : List UInt8) :
    enc'.offset + (rest.take (room - (enc.envelopePending codec).length)).length =
      enc.offset + ((enc.envelopePending codec ++ rest).take room).length := by
  rw [h.offset, take_append, length_append, Nat.add_assoc]

theorem Enveloped.fits {enc' : FrameEncoder} {room : Nat} (h : Enveloped codec enc enc' room)
    (rest : List UInt8) : enc'.Fits (rest.take (room - (enc.envelopePending codec).length)) ↔
      enc.Fits ((enc.envelopePending codec ++ rest).take room) := by
  rw [Fits, Fits, h.offset_append]

theorem sub_length_take (text : List UInt8) (room : Nat) :
    room - (text.take room).length = room - text.length := by
  rw [length_take]
  omega

end FrameEncoder

namespace EventWriter

theorem release_spec {enc : FrameEncoder} (h : FrameEncoder.Sound codec enc) (w : EventWriter) :
    FrameEncoder.Sound codec (release enc w) ∧
      (release enc w).envelopePending codec = enc.envelopePending codec ∧
      (release enc w).offset = enc.offset ∧ (release enc w).error = enc.error := by
  unfold release
  split
  · exact ⟨⟨h.prepared, h.unprepared, h.written⟩, rfl, rfl, rfl⟩
  · exact ⟨h, rfl, rfl, rfl⟩

variable (codec) in
structure Proceeds (enc : FrameEncoder) (w : EventWriter) (room : Nat) (enc' : FrameEncoder)
    (w' : EventWriter) : Prop where
  sound : FrameEncoder.Sound codec enc'
  pending : enc'.envelopePending codec ++ w'.pending codec =
    (enc.envelopePending codec ++ w.pending codec).drop room
  offset : enc'.offset =
    enc.offset + ((enc.envelopePending codec ++ w.pending codec).take room).length
  error : enc'.error = none
  state : (w'.complete = true ∧ enc'.state = .open_) ∨ (Busy w' ∧ enc'.state = enc.state)

theorem write_spec {enc : FrameEncoder} (he : enc.error = none)
    (hs : FrameEncoder.Sound codec enc) {w : EventWriter} (hw : Busy w) (room : Nat) :
    FrameEncoder.Emits Prod.fst enc ((enc.envelopePending codec ++ w.pending codec).take room)
      (fun s => Proceeds codec enc w room s.1 s.2) (write codec enc w room) := by
  unfold write
  rw [he, hw.incomplete]
  have hwr := FrameEncoder.writeEnvelope_spec he hs room
  generalize enc.writeEnvelope codec room = r at hwr
  cases hwr with
  | error hf ho => exact .error (fun h => hf h.front) ho
  | @ok enc₁ hf h₁ =>
    dsimp only
    rw [FrameEncoder.sub_length_take]
    have hre := written_records codec h₁.error hw (Nat.lt_succ_self _)
      (room - (enc.envelopePending codec).length) ((enc.envelopePending codec).take room)
    generalize writeRecords codec _ enc₁ w _ _ = r at hre
    cases hre with
    | error hf' ho => exact .error (fun h => hf' ((h₁.fits _).mpr h)) ho
    | @ok w' hf' hl =>
      have hr := release_spec (h₁.sound.wrote ((w.pending codec).take
        (room - (enc.envelopePending codec).length))) w'
      rw [← take_append]
      refine .ok ((h₁.fits _).mp hf') ⟨hr.1, ?_, ?_, ?_, ?_⟩
      · rw [hr.2.1, drop_append, hl.pending]
        exact congrArg (· ++ _) h₁.pending
      · rw [hr.2.2.1]
        exact h₁.offset_append _
      · rw [hr.2.2.2]
        exact h₁.error
      · rcases hl.state with ⟨hd, -⟩ | ⟨hb, -⟩
        · refine .inl ⟨hd, ?_⟩
          rw [release, if_pos hd]
        · refine .inr ⟨hb, ?_⟩
          rw [release, hb.incomplete]
          exact h₁.state

end EventWriter

namespace FrameEncoder

variable {enc : FrameEncoder}

theorem Sound.active (h : Sound codec enc) (state : EncoderState) :
    Sound codec { enc with state } := ⟨h.prepared, h.unprepared, h.written⟩

theorem length_headerText_pos (id : UInt64) (argument : Option Header) :
    0 < (headerText codec id argument).length := by
  have ha : (if argument.isSome then 2 else 1) < 24 := by split <;> decide
  rw [headerText, length_append, length_append, length_push_array ha]
  omega

variable (codec) in
theorem startEvent_spec (he : enc.error = none) (hst : enc.state = .open_) (event : Event) :
    ∃ w, enc.startEvent codec event = (.ok w, { enc with state := .active }) ∧
      EventWriter.Busy w ∧ w.pending codec = eventText codec event := by
  unfold startEvent
  rw [he, hst]
  simp only [RecordHeader.event,
    RecordHeader.new_eq (recordId_small event) (argument_encodable event)]
  refine ⟨_, rfl, ?_⟩
  cases event with
  | data data =>
    refine ⟨⟨rfl, ?_, ?_, .inl (length_headerText_pos _ _)⟩, ?_⟩
    · rintro _ ⟨⟩
      exact Nat.min_le_left _ _
    · rintro _ ⟨⟩ hne
      exact Nat.lt_min.mpr ⟨length_pos_iff.mpr hne, by decide⟩
    · rw [eventText_data]
      simp [EventWriter.pending, EventWriter.payloadPending, recordFields]
  | begin_ _ | end_ _ | atom _ =>
    refine ⟨⟨rfl, nofun, nofun, .inl (length_headerText_pos _ _)⟩, ?_⟩
    simp [EventWriter.pending, EventWriter.payloadPending, eventText, records, recordText, payload]

variable (codec) in
structure Finishes (enc : FrameEncoder) (room : Nat) (enc' : FrameEncoder) : Prop where
  sound : Sound codec enc'
  offset : enc'.offset =
    enc.offset + ((enc.envelopePending codec ++ codec.push .break_).take room).length
  error : enc'.error = none
  state : (enc'.state = .finished ∧
      (enc.envelopePending codec ++ codec.push .break_).length ≤ room) ∨
    (enc'.state = .finishing ∧ enc'.envelopePending codec ++ codec.push .break_ =
      (enc.envelopePending codec ++ codec.push .break_).drop room ∧
      room < (enc.envelopePending codec ++ codec.push .break_).length)

theorem writeEnding_spec (he : enc.error = none) (hs : Sound codec enc)
    (hst : enc.state = .finishing) (room : Nat) :
    Emits id enc ((enc.envelopePending codec ++ codec.push .break_).take room)
      (Finishes codec enc room) (enc.writeEnding codec room) := by
  have hb : (codec.push .break_).length = 1 := codec.length_push .break_ trivial
  have hen : encodeHeaders codec [.break_] 1 = .ok (codec.push .break_) := by
    rw [encodeHeaders_eq] <;> simp [hb]
  have hl := length_take (i := room) (l := enc.envelopePending codec)
  unfold writeEnding
  have hw := writeEnvelope_spec he hs room
  generalize enc.writeEnvelope codec room = r at hw
  cases hw with
  | error hf ho => exact .error (fun h => hf h.front) ho
  | @ok enc₁ hf h₁ =>
    simp only [hen]
    rcases Nat.lt_or_ge (enc.envelopePending codec).length room with hr | hr
    · -- the break follows in the same buffer
      rw [if_neg (by omega), sub_length_take]
      have hbs := writeBytes_spec h₁.error (codec.push .break_)
        (room - (enc.envelopePending codec).length)
      generalize enc₁.writeBytes _ _ = r at hbs
      cases hbs with
      | error hf' ho => exact .error (fun h => hf' ((h₁.fits _).mpr h)) ho
      | ok hf' hn =>
        subst hn
        dsimp only
        rw [← take_append]
        refine .ok ((h₁.fits _).mp hf') ⟨(h₁.sound.wrote _).active _, h₁.offset_append _,
          h₁.error, .inl ⟨rfl, ?_⟩⟩
        rw [length_append, hb]
        exact hr
    · have ht : (enc.envelopePending codec ++ codec.push .break_).take room =
          (enc.envelopePending codec).take room := take_append_of_le_length hr
      rw [if_pos (by omega)]
      rw [← ht] at hf ⊢
      refine .ok hf ⟨h₁.sound, ?_, h₁.error, .inr ⟨?_, ?_, ?_⟩⟩
      · rw [ht, h₁.offset]
      · rw [h₁.state, hst]
      · rw [h₁.pending, drop_append_of_le_length hr]
      · rw [length_append, hb]
        exact Nat.lt_succ_of_le hr

theorem finish_spec (he : enc.error = none) (hs : Sound codec enc)
    (hst : enc.state = .open_ ∨ enc.state = .finishing) (room : Nat) :
    Emits id enc ((enc.envelopePending codec ++ codec.push .break_).take room)
      (Finishes codec enc room) (enc.finish codec room) := by
  have hfi : enc.finish codec room = writeEnding codec { enc with state := .finishing } room := by
    unfold finish
    rw [he]
    rcases hst with h | h <;> rw [h]
  have her : FrameEncoder.error { enc with state := .finishing } = none := he
  have hsp := writeEnding_spec her (hs.active _) rfl room
  rw [hfi]
  generalize writeEnding codec { enc with state := .finishing } room = r at hsp
  cases hsp with
  | ok hf h => exact .ok hf ⟨h.sound, h.offset, h.error, h.state⟩
  | error hf ho => exact .error hf ho

end FrameEncoder

end Xolotl.Codec
