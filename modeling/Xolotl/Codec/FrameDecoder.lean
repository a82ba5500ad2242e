import Xolotl.Codec.Framing

/-! The resumable event decoder. A call reads a front part of the window it is given and
returns at the first event, or when it needs more input. -/

namespace Xolotl.Codec

open Xolotl.Types

variable (codec : HeaderCodec)

inductive DecodeStatus
  | needInput
  | event (event : Event)
  | end_
  deriving DecidableEq

structure DecodeStep where
  consumed : Nat
  status : DecodeStatus
  deriving DecidableEq

inductive DecodeState
  | envelope
  | magicHeader
  | magic (matched : Nat)
  | version
  | events
  | record
  | tag (arity : Nat)
  | argument (tag : UInt64)
  | data (remaining : Nat)
  | ended
  | finished
  deriving DecidableEq

structure FrameDecoder where
  state : DecodeState
  header : List UInt8
  offset : Nat
  error : Option Error

/-! ## Headers -/

def argument (tag : UInt64) (header : Header) : Except ErrorKind (DecodeState × Option Event) :=
  match tag.toNat, header with
  | 0, .positive id => (kindFromId id).map fun kind => (.record, some (.begin_ kind))
  | 1, .positive id => (kindFromId id).map fun kind => (.record, some (.end_ kind))
  | 5, .positive value =>
    (i64TryFrom value).map fun value => (.record, some (.atom (.i64 value)))
  | 5, .negative value =>
    (i64TryFrom value).map fun value => (.record, some (.atom (.i64 (~~~ value))))
  | 6, .positive value => .ok (.record, some (.atom (.f64Bits value)))
  | 7, .positive value => .ok (.record, some (.atom (.u64 value)))
  | 8, .positive id => (dtypeFromId id).map fun dtype => (.record, some (.atom (.dtype dtype)))
  | 9, .positive id =>
    (frameKindFromId id).map fun kind => (.record, some (.atom (.frameKind kind)))
  | 13, .bytes (some len) =>
    if maxDataRecordBytes < len then .error (.dataRecordTooLarge len)
    else if len ≠ 0 then .ok (.data len, none)
    else .ok (.record, some (.data []))
  | _, _ => .error .invalidRecord

def plainAtom (tag : UInt64) : Except ErrorKind Atom :=
  match tag.toNat with
  | 2 => .ok .null
  | 3 => .ok (.bool false)
  | 4 => .ok (.bool true)
  | 10 => .ok .author
  | 11 => .ok .model
  | 12 => .ok .streamDone
  | _ => .error .invalidRecord

/-- The next state after a complete header, and the event it completes. The state after an
error is never read. -/
def accept (state : DecodeState) (header : Header) :
    Except ErrorKind (DecodeState × Option Event) :=
  match state with
  | .envelope =>
    if header = .array (some 3) then .ok (.magicHeader, none) else .error .invalidEnvelope
  | .magicHeader =>
    if header = .bytes (some magic.length) then .ok (.magic 0, none) else .error .invalidEnvelope
  | .version =>
    match header with
    | .positive found =>
      if found = version then .ok (.events, none) else .error (.unsupportedVersion found)
    | _ => .error .invalidEnvelope
  | .events => if header = .array none then .ok (.record, none) else .error .invalidEnvelope
  | .record =>
    match header with
    | .break_ => .ok (.ended, none)
    | .array (some arity) =>
      if arity = 1 ∨ arity = 2 then .ok (.tag arity, none) else .error .invalidRecord
    | _ => .error .invalidRecord
  | .tag arity =>
    match header with
    | .positive tag =>
      match recordArity tag with
      | .error kind => .error kind
      | .ok expected =>
        if expected ≠ arity then .error .invalidRecord
        else if arity = 2 then .ok (.argument tag, none)
        else (plainAtom tag).map fun atom => (.record, some (.atom atom))
    | _ => .error .invalidRecord
  | .argument tag => argument tag header
  | .magic _ | .data _ | .ended | .finished => .error .invalidRecord

namespace FrameDecoder

def new : FrameDecoder := ⟨.envelope, [], 0, none⟩

variable (d : FrameDecoder)

/-- Complete the staged header as far as the window goes; only a complete one is handed to
the header codec. -/
def fillHeader (first : UInt8) (window : List UInt8) :
    Except ErrorKind (Option Header) × FrameDecoder × List UInt8 :=
  let count := min (headerBytes first - d.header.length) window.length
  match advanceOffset d.offset count with
  | .error kind => (.error kind, d, window)
  | .ok offset =>
    let d := { d with offset, header := d.header ++ window.take count }
    if d.header.length ≠ headerBytes first then (.ok none, d, window.drop count)
    else
      match codec.pull d.header with
      | none => (.error .invalidCbor, d, window.drop count)
      | some header => (.ok (some header), { d with header := [] }, window.drop count)

def pullHeader (window : List UInt8) :
    Except ErrorKind (Option Header) × FrameDecoder × List UInt8 :=
  match d.header, window with
  | first :: _, window => d.fillHeader codec first window
  | [], [] => (.ok none, d, [])
  | [], first :: window =>
    match advanceOffset d.offset 1 with
    | .error kind => (.error kind, d, first :: window)
    | .ok offset => fillHeader codec { d with offset, header := [first] } first window

/-! ## Decoding -/

inductive Turn
  | fail (kind : ErrorKind) (d : FrameDecoder)
  | done (status : DecodeStatus) (d : FrameDecoder) (window : List UInt8)
  | again (d : FrameDecoder) (window : List UInt8)

def mismatch (bytes expected : List UInt8) : Option Nat :=
  (bytes.zip expected).findIdx? fun pair => pair.1 != pair.2

def turnMagic (matched : Nat) (window : List UInt8) : Turn :=
  let count := min (magic.length - matched) window.length
  match mismatch (window.take count) (magic.drop matched) with
  | some index =>
    match advanceOffset d.offset (index + 1) with
    | .error kind => .fail kind d
    | .ok offset => .fail .invalidEnvelope { d with offset }
  | none =>
    match advanceOffset d.offset count with
    | .error kind => .fail kind d
    | .ok offset =>
      if matched + count ≠ magic.length then
        .done .needInput { d with offset, state := .magic (matched + count) } (window.drop count)
      else .again { d with offset, state := .version } (window.drop count)

def turnData (remaining : Nat) (window : List UInt8) : Turn :=
  let count := min remaining window.length
  if count = 0 then .done .needInput d window
  else
    match advanceOffset d.offset count with
    | .error kind => .fail kind d
    | .ok offset =>
      let state := if count = remaining then .record else .data (remaining - count)
      .done (.event (.data (window.take count))) { d with offset, state } (window.drop count)

def turnHeader (window : List UInt8) : Turn :=
  match d.pullHeader codec window with
  | (.error kind, d, _) => .fail kind d
  | (.ok none, d, window) => .done .needInput d window
  | (.ok (some header), d, window) =>
    match accept d.state header with
    | .error kind => .fail kind d
    | .ok (state, none) => .again { d with state } window
    | .ok (state, some event) => .done (.event event) { d with state } window

def turn (window : List UInt8) : Turn :=
  match d.state with
  | .magic matched => d.turnMagic matched window
  | .data remaining => d.turnData remaining window
  | .ended | .finished =>
    if window ≠ [] then .fail .trailingData d else .done .end_ d window
  | _ => d.turnHeader codec window

/-- The loop. A turn that does not end it has read at least one byte. -/
def turns : Nat → FrameDecoder → List UInt8 → Turn
  | 0, d, window => .done .needInput d window
  | n + 1, d, window =>
    match d.turn codec window with
    | .again d window => turns n d window
    | result => result

def fail (kind : ErrorKind) : Error × FrameDecoder :=
  let error := d.error.getD ⟨d.offset, kind⟩
  (error, { d with error := some error })

def decode (input : List UInt8) : Except Error DecodeStep × FrameDecoder :=
  match d.error with
  | some error => (.error error, d)
  | none =>
    match d.turns codec (input.length + 1) input with
    | .fail kind d => (.error (d.fail kind).1, (d.fail kind).2)
    | .done status d window => (.ok ⟨input.length - window.length, status⟩, d)
    | .again d window => (.ok ⟨input.length - window.length, .needInput⟩, d)

def finish : Except Error Unit × FrameDecoder :=
  match d.error with
  | some error => (.error error, d)
  | none =>
    match d.state with
    | .ended | .finished => (.ok (), { d with state := .finished })
    | _ => (.error (d.fail .truncated).1, (d.fail .truncated).2)

def bytesRead : Nat := d.offset

end FrameDecoder

end Xolotl.Codec
