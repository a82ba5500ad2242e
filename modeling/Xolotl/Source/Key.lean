import Xolotl.Lib.BigEndian
import Xolotl.Lib.Fallible
import Xolotl.Lib.SelfDelimiting
import Xolotl.Lib.WordOrder
import Xolotl.Source.Request

/-! Keys of the private Source maps: a kind byte, length-prefixed identities, fixed-width epochs.
What a key names can be read back from it. -/

namespace Xolotl.Source

open Xolotl.Types Word Fallible List

abbrev Bytes := List UInt8

/-! ## Writing keys -/

def kindEvent : UInt8 := 69
def kindClaim : UInt8 := 67
def kindRate : UInt8 := 82
def kindStream : UInt8 := 83
def kindRevision : UInt8 := 86

def segment (key : Bytes) (text : Text) : SourceResult Bytes :=
  if !isId text then aborted "Source identity is invalid"
  else .ok (key ++ (bigEndian 4 text.bytes.length ++ text.bytes))

def epochBytes (epoch : UInt64) : Bytes := bigEndian 8 epoch.toNat

variable (kind : UInt8) (installationId projectionId : Text) (scopeEpoch : UInt64)

def scopeKey : SourceResult Bytes := do
  if !isId installationId || !isId projectionId then aborted "Source scope identity is invalid"
  else
    let key ← segment [kind] installationId
    segment key projectionId

def streamEpochBytes : Option UInt64 → Bytes
  | none => [0]
  | some epoch => 1 :: epochBytes epoch

def eventKeyFor (streamEpoch : Option UInt64) (eventId : Text) : SourceResult Bytes := do
  if scopeEpoch = 0 ∨ streamEpoch = some 0 then aborted "Source scope or stream epoch is invalid"
  else
    let key ← scopeKey kindEvent installationId projectionId
    segment (key ++ epochBytes scopeEpoch ++ streamEpochBytes streamEpoch) eventId

variable (claim : SourceClaim)

def eventKey : SourceResult Bytes :=
  eventKeyFor claim.installationId claim.projectionId claim.scopeEpoch claim.streamEpoch
    claim.eventId

def claimKey : SourceResult Bytes := do
  let key ← scopeKey kindClaim claim.installationId claim.projectionId
  let key ← segment (key ++ epochBytes claim.scopeEpoch ++ streamEpochBytes claim.streamEpoch)
    claim.eventId
  return key ++ claim.claimId.bytes

def streamKey (stream : SourceStreamPosition) : SourceResult Bytes := do
  let key ← scopeKey kindStream claim.installationId claim.projectionId
  segment (key ++ epochBytes claim.scopeEpoch) stream.streamId

def epochKey : SourceResult Bytes := do
  let key ← scopeKey kind installationId projectionId
  return key ++ epochBytes scopeEpoch

def rateKey : SourceResult Bytes :=
  epochKey kindRate claim.installationId claim.projectionId claim.scopeEpoch

def revisionKey : SourceResult Bytes :=
  epochKey kindRevision installationId projectionId scopeEpoch

variable (stream : SourceStreamScope)

def streamScopeKey (kind : UInt8) : SourceResult Bytes := do
  validateStreamScope stream
  let key ← epochKey kind stream.installationId stream.projectionId stream.scopeEpoch
  if kind = kindStream then segment key stream.streamId else return key

/-! ## Reading keys -/

def corrupt {α : Type} : SourceResult α := aborted "Source metadata key is corrupt"

def corruptEvent {α : Type} : SourceResult α := aborted "Source event key is corrupt"

def takeBytes (count : Nat) (key : Bytes) : Option (Bytes × Bytes) :=
  if key.length < count then none else some (key.take count, key.drop count)

def takeSegment (key : Bytes) : SourceResult (Text × Bytes) :=
  match takeBytes 4 key with
  | none => corrupt
  | some (length, _) =>
    let length := fromBigEndian length
    if length = 0 ∨ maxIdBytes < length then corrupt
    else
      match takeBytes (4 + length) key with
      | none => corrupt
      | some (framed, rest) =>
        match Text.ofBytes (framed.drop 4) with
        | none => corrupt
        | some value => .ok (value, rest)

def takeStreamEpoch (rest : Bytes) : SourceResult Bytes :=
  match rest with
  | [] => corruptEvent
  | ordered :: rest =>
    if ordered = 0 then .ok rest
    else if ordered = 1 then
      match takeBytes 8 rest with
      | none => corruptEvent
      | some (streamEpoch, rest) =>
        if streamEpoch = List.replicate 8 0 then corruptEvent else .ok rest
    else corruptEvent

def takeTail (rest : Bytes) : SourceResult Bytes := do
  if kind = kindEvent then
    let rest ← takeStreamEpoch rest
    let (_, rest) ← takeSegment rest
    return rest
  else if kind = kindStream then
    let (_, rest) ← takeSegment rest
    return rest
  else if kind = kindRate then return rest
  else corrupt

def parseSourceScope (key : Bytes) : SourceResult (Text × Text × UInt64) := do
  match key with
  | [] => corrupt
  | kind :: rest =>
    let (installation, rest) ← takeSegment rest
    let (projection, rest) ← takeSegment rest
    match takeBytes 8 rest with
    | none => corrupt
    | some (epoch, rest) =>
      let epoch := UInt64.ofNat (fromBigEndian epoch)
      let rest ← takeTail kind rest
      if epoch = 0 ∨ rest ≠ [] then corrupt else return (installation, projection, epoch)

/-! ## What keys name -/

def segmentBytes (text : Text) : Bytes := bigEndian 4 text.bytes.length ++ text.bytes

structure ScopeName where
  installation : Text
  projection : Text
  epoch : UInt64
  deriving DecidableEq

structure EventName where
  scope : ScopeName
  streamEpoch : Option UInt64
  event : Text
  deriving DecidableEq

structure StreamName where
  scope : ScopeName
  stream : Text
  deriving DecidableEq

namespace ScopeName

def Named (scope : ScopeName) : Prop :=
  isId scope.installation = true ∧ isId scope.projection = true

def bytes (scope : ScopeName) : Bytes :=
  segmentBytes scope.installation ++ (segmentBytes scope.projection ++ epochBytes scope.epoch)

def key (kind : UInt8) (scope : ScopeName) : Bytes := kind :: scope.bytes

end ScopeName

namespace EventName

def Named (name : EventName) : Prop := name.scope.Named ∧ isId name.event = true

variable (name : EventName)

def Valid : Prop :=
  name.Named ∧ name.scope.epoch ≠ 0 ∧ name.streamEpoch ≠ some 0

def bytes (name : EventName) : Bytes :=
  name.scope.bytes ++ (streamEpochBytes name.streamEpoch ++ segmentBytes name.event)

def key : Bytes := kindEvent :: name.bytes

def claimKey (claimId : SourceClaimId) : Bytes :=
  kindClaim :: (name.bytes ++ claimId.bytes)

end EventName

namespace StreamName

def Named (name : StreamName) : Prop := name.scope.Named ∧ isId name.stream = true

def bytes (name : StreamName) : Bytes := name.scope.bytes ++ segmentBytes name.stream

def key (name : StreamName) : Bytes := kindStream :: name.bytes

end StreamName

def SourceClaim.scope : ScopeName :=
  ⟨claim.installationId, claim.projectionId, claim.scopeEpoch⟩

def SourceClaim.name : EventName :=
  ⟨claim.scope, claim.streamEpoch, claim.eventId⟩

def SourceStreamScope.scope : ScopeName :=
  ⟨stream.installationId, stream.projectionId, stream.scopeEpoch⟩

def SourceStreamScope.name : StreamName :=
  ⟨stream.scope, stream.streamId⟩

/-! ## Keys are the bytes of names -/

variable {key : Bytes} {text installation projection : Text} {kind : UInt8} {claim : SourceClaim}
  {stream : SourceStreamScope}

theorem segment_eq_ok {key' : Bytes} :
    segment key text = .ok key' ↔ isId text = true ∧ key' = key ++ segmentBytes text := by
  unfold segment
  cases h : isId text <;> simp [aborted, segmentBytes, eq_comm]

theorem scopeKey_eq_ok : scopeKey kind installation projection = .ok key ↔
      isId installation = true ∧ isId projection = true ∧
        key = kind :: (segmentBytes installation ++ segmentBytes projection) := by
  unfold scopeKey
  by_cases hvalid : isId installation = true ∧ isId projection = true
  · simp [hvalid, bind_ok, segment_eq_ok]
  · rw [if_pos (by simpa [Decidable.or_iff_not_imp_left] using hvalid)]
    simp only [aborted, reduceCtorEq, false_iff]
    exact fun h => hvalid ⟨h.1, h.2.1⟩

theorem epochKey_eq_ok {epoch : UInt64} : epochKey kind installation projection epoch = .ok key ↔
      (ScopeName.mk installation projection epoch).Named ∧
        key = ScopeName.key kind ⟨installation, projection, epoch⟩ := by
  unfold epochKey
  simp only [bind_ok, scopeKey_eq_ok, ScopeName.key, ScopeName.bytes]
  constructor
  · rintro ⟨_, ⟨hi, hp, rfl⟩, h⟩
    exact ⟨⟨hi, hp⟩, by simpa [pure, Except.pure] using (Except.ok.inj h).symm⟩
  · rintro ⟨⟨hi, hp⟩, rfl⟩
    exact ⟨_, ⟨hi, hp, rfl⟩, by simp [pure, Except.pure]⟩

variable {streamEpoch : Option UInt64} {scope : ScopeName}

theorem eventKeyFor_eq_ok {event : Text} {epoch : UInt64} :
    eventKeyFor installation projection epoch streamEpoch event = .ok key ↔
      (EventName.mk ⟨installation, projection, epoch⟩ streamEpoch event).Valid ∧
        key = EventName.key ⟨⟨installation, projection, epoch⟩, streamEpoch, event⟩ := by
  unfold eventKeyFor
  simp only [EventName.key, EventName.bytes, ScopeName.bytes]
  by_cases hzero : epoch = 0 ∨ streamEpoch = some 0
  · rw [if_pos hzero]
    simp only [aborted, reduceCtorEq, false_iff]
    rintro ⟨⟨_, hep, hs⟩, _⟩
    exact hzero.elim hep hs
  · rw [if_neg hzero]
    rw [not_or] at hzero
    simp only [bind_ok, scopeKey_eq_ok, segment_eq_ok]
    constructor
    · rintro ⟨_, ⟨hi, hp, rfl⟩, he, rfl⟩
      exact ⟨⟨⟨⟨hi, hp⟩, he⟩, hzero⟩, by simp⟩
    · rintro ⟨⟨⟨⟨hi, hp⟩, he⟩, _⟩, rfl⟩
      exact ⟨_, ⟨hi, hp, rfl⟩, he, by simp⟩

theorem claimKey_eq_ok : claimKey claim = .ok key ↔
      claim.name.Named ∧ key = claim.name.claimKey claim.claimId := by
  unfold claimKey
  simp only [bind_ok, scopeKey_eq_ok, segment_eq_ok,
    EventName.claimKey, EventName.bytes, ScopeName.bytes, SourceClaim.name, SourceClaim.scope]
  constructor
  · rintro ⟨_, ⟨hi, hp, rfl⟩, _, ⟨he, rfl⟩, h⟩
    exact ⟨⟨⟨hi, hp⟩, he⟩, by simpa [pure, Except.pure] using (Except.ok.inj h).symm⟩
  · rintro ⟨⟨⟨hi, hp⟩, he⟩, rfl⟩
    exact ⟨_, ⟨hi, hp, rfl⟩, _, ⟨he, rfl⟩, by simp [pure, Except.pure]⟩

theorem streamKey_eq_ok {stream : SourceStreamPosition} : streamKey claim stream = .ok key ↔
      (StreamName.mk claim.scope stream.streamId).Named ∧
        key = StreamName.key ⟨claim.scope, stream.streamId⟩ := by
  unfold streamKey
  simp only [bind_ok, scopeKey_eq_ok, segment_eq_ok,
    StreamName.key, StreamName.bytes, ScopeName.bytes, SourceClaim.scope]
  constructor
  · rintro ⟨_, ⟨hi, hp, rfl⟩, hs, rfl⟩
    exact ⟨⟨⟨hi, hp⟩, hs⟩, by simp⟩
  · rintro ⟨⟨⟨hi, hp⟩, hs⟩, rfl⟩
    exact ⟨_, ⟨hi, hp, rfl⟩, hs, by simp⟩

theorem validateStreamScope_eq_ok :
    validateStreamScope stream = .ok () ↔ stream.name.Named ∧ stream.scopeEpoch ≠ 0 := by
  unfold validateStreamScope
  by_cases hzero : stream.scopeEpoch = 0
  · simp [hzero, aborted]
  · by_cases hid : [stream.installationId, stream.projectionId, stream.streamId].all isId = true
    · rw [if_neg hzero, if_pos hid]
      simp only [all_cons, all_nil, Bool.and_true, Bool.and_eq_true] at hid
      exact ⟨fun _ => ⟨⟨⟨hid.1, hid.2.1⟩, hid.2.2⟩, hzero⟩, fun _ => rfl⟩
    · rw [if_neg hzero, if_neg hid]
      refine ⟨nofun, fun ⟨⟨⟨hi, hp⟩, hs⟩, _⟩ => absurd ?_ hid⟩
      simp only [all_cons, all_nil, Bool.and_true, Bool.and_eq_true]
      exact ⟨hi, hp, hs⟩

theorem streamScopeKey_stream_eq_ok : streamScopeKey stream kindStream = .ok key ↔
      (stream.name.Named ∧ stream.scopeEpoch ≠ 0) ∧ key = stream.name.key := by
  unfold streamScopeKey
  simp only [bind_ok, epochKey_eq_ok, if_true, segment_eq_ok]
  constructor
  · rintro ⟨_, hvalid, _, ⟨_, rfl⟩, _, rfl⟩
    refine ⟨validateStreamScope_eq_ok.mp hvalid, ?_⟩
    simp [StreamName.key, StreamName.bytes, SourceStreamScope.name, SourceStreamScope.scope,
      ScopeName.key]
  · rintro ⟨hvalid, rfl⟩
    refine ⟨(), validateStreamScope_eq_ok.mpr hvalid, _, ⟨hvalid.1.1, rfl⟩, hvalid.1.2, ?_⟩
    simp [StreamName.key, StreamName.bytes, SourceStreamScope.name, SourceStreamScope.scope,
      ScopeName.key]

theorem streamScopeKey_revision_eq_ok : streamScopeKey stream kindRevision = .ok key ↔
      (stream.name.Named ∧ stream.scopeEpoch ≠ 0) ∧ key = stream.scope.key kindRevision := by
  unfold streamScopeKey
  simp only [bind_ok, epochKey_eq_ok]
  constructor
  · rintro ⟨_, hvalid, _, ⟨_, rfl⟩, h⟩
    exact ⟨validateStreamScope_eq_ok.mp hvalid, (Except.ok.inj h).symm⟩
  · rintro ⟨hvalid, rfl⟩
    exact ⟨(), validateStreamScope_eq_ok.mpr hvalid, _, ⟨hvalid.1.1, rfl⟩, rfl⟩

/-! ## Keys tell names apart -/

theorem isId_iff : isId text = true ↔ text.bytes ≠ [] ∧ text.bytes.length ≤ maxIdBytes := by
  simp [isId]

theorem length_lt_of_isId (h : isId text = true) : text.bytes.length < 256 ^ 4 :=
  Nat.lt_of_le_of_lt (isId_iff.mp h).2 (by decide)

theorem segmentBytes_delimiting : SelfDelimiting (fun t : Text => isId t = true) segmentBytes := by
  have hc : SelfDelimiting (· < 256 ^ 4) (bigEndian 4) :=
    .of_length (fun _ => length_bigEndian _ _) fun _ _ => bigEndian_inj
  exact hc.prefixed.comp Text.bytes_injective fun _ => length_lt_of_isId

theorem epoch_lt (epoch : UInt64) : epoch.toNat < 256 ^ 8 := epoch.toNat_lt

theorem epochBytes_injective {a b : UInt64} (h : epochBytes a = epochBytes b) : a = b :=
  UInt64.toNat_inj.mp (bigEndian_inj (epoch_lt a) (epoch_lt b) h)

theorem epochBytes_delimiting : SelfDelimiting (fun _ : UInt64 => True) epochBytes :=
  .of_length (fun _ => length_bigEndian _ _) fun _ _ _ _ => epochBytes_injective

theorem streamEpochBytes_delimiting :
    SelfDelimiting (fun _ : Option UInt64 => True) streamEpochBytes := by
  intro a b rest rest' _ _ h
  cases a with
  | none =>
    cases b with
    | none => exact ⟨rfl, by simpa [streamEpochBytes] using h⟩
    | some b => simp [streamEpochBytes] at h
  | some a =>
    cases b with
    | none => simp [streamEpochBytes] at h
    | some b =>
      rw [streamEpochBytes, streamEpochBytes, cons_append, cons_append, List.cons.injEq] at h
      obtain ⟨rfl, hr⟩ := epochBytes_delimiting a b rest rest' trivial trivial h.2
      exact ⟨rfl, hr⟩

namespace ScopeName

theorem bytes_delimiting : SelfDelimiting Named bytes := by
  have hp := segmentBytes_delimiting.prod (segmentBytes_delimiting.prod epochBytes_delimiting)
  refine hp.comp
    (f := fun scope : ScopeName => (scope.installation, scope.projection, scope.epoch)) ?_ ?_
  · rintro ⟨_, _, _⟩ ⟨_, _, _⟩ h
    simpa using h
  · exact fun scope h => ⟨h.1, h.2, trivial⟩

theorem key_inj {kind : UInt8} {a b : ScopeName} (ha : a.Named) (hb : b.Named)
    (h : a.key kind = b.key kind) : a = b :=
  bytes_delimiting.injective ha hb (List.cons.inj h).2

end ScopeName

namespace EventName

theorem bytes_delimiting : SelfDelimiting Named bytes := by
  have hp := ScopeName.bytes_delimiting.prod
    (streamEpochBytes_delimiting.prod segmentBytes_delimiting)
  refine hp.comp (f := fun name : EventName => (name.scope, name.streamEpoch, name.event)) ?_ ?_
  · rintro ⟨_, _, _⟩ ⟨_, _, _⟩ h
    simpa using h
  · exact fun name h => ⟨h.1, trivial, h.2⟩

theorem key_inj {a b : EventName} (ha : a.Named) (hb : b.Named) (h : a.key = b.key) : a = b :=
  bytes_delimiting.injective ha hb (List.cons.inj h).2

theorem claimKey_inj {a b : EventName} {x y : SourceClaimId} (ha : a.Named) (hb : b.Named)
    (h : a.claimKey x = b.claimKey y) : a = b ∧ x = y := by
  obtain ⟨hn, hc⟩ := bytes_delimiting a b _ _ ha hb (List.cons.inj h).2
  refine ⟨hn, ?_⟩
  cases y
  cases hc
  rfl

end EventName

namespace StreamName

theorem bytes_delimiting : SelfDelimiting Named bytes := by
  refine (ScopeName.bytes_delimiting.prod segmentBytes_delimiting).comp
    (f := fun name : StreamName => (name.scope, name.stream)) ?_ ?_
  · rintro ⟨_, _⟩ ⟨_, _⟩ h
    simpa using h
  · exact fun name h => h

theorem key_inj {a b : StreamName} (ha : a.Named) (hb : b.Named) (h : a.key = b.key) : a = b :=
  bytes_delimiting.injective ha hb (List.cons.inj h).2

end StreamName

/-! ## Reading back -/

theorem takeBytes_append {count : Nat} {bytes rest : Bytes} (h : bytes.length = count) :
    takeBytes count (bytes ++ rest) = some (bytes, rest) := by
  subst h
  simp [takeBytes]

theorem takeSegment_append (h : isId text = true) (rest : Bytes) :
    takeSegment (segmentBytes text ++ rest) = .ok (text, rest) := by
  have hl : (bigEndian 4 text.bytes.length).length = 4 := length_bigEndian _ _
  have hv : fromBigEndian (bigEndian 4 text.bytes.length) = text.bytes.length :=
    fromBigEndian_bigEndian (length_lt_of_isId h)
  have hf : takeBytes 4 (segmentBytes text ++ rest) =
      some (bigEndian 4 text.bytes.length, text.bytes ++ rest) := by
    exact takeBytes_append hl
  have hw : takeBytes (4 + text.bytes.length) (segmentBytes text ++ rest) =
      some (segmentBytes text, rest) :=
    takeBytes_append (by rw [segmentBytes, length_append, hl])
  have hd : (segmentBytes text).drop 4 = text.bytes := by
    rw [segmentBytes, drop_left' hl]
  obtain ⟨hne, hm⟩ := isId_iff.mp h
  have hpos : ¬(text.bytes.length = 0 ∨ maxIdBytes < text.bytes.length) := by
    rw [not_or, length_eq_zero_iff]
    exact ⟨hne, Nat.not_lt.mpr hm⟩
  unfold takeSegment
  simp only [hf, hv, if_neg hpos, hw, hd, Text.ofBytes_bytes]

theorem takeStreamEpoch_append (h : streamEpoch ≠ some 0)
    (rest : Bytes) : takeStreamEpoch (streamEpochBytes streamEpoch ++ rest) = .ok rest := by
  cases streamEpoch with
  | none => rfl
  | some epoch =>
    have ht : takeBytes 8 (epochBytes epoch ++ rest) = some (epochBytes epoch, rest) :=
      takeBytes_append (length_bigEndian _ _)
    have hzero : epochBytes epoch ≠ List.replicate 8 0 := fun hbs =>
      h (congrArg some (epochBytes_injective (b := 0) hbs))
    simp only [takeStreamEpoch, streamEpochBytes, cons_append, ht, if_neg hzero]
    rfl

theorem parseSourceScope_of_tail {tail : Bytes}
    (hn : scope.Named) (hep : scope.epoch ≠ 0) (ht : takeTail kind tail = .ok []) :
    parseSourceScope (kind :: (scope.bytes ++ tail)) =
      .ok (scope.installation, scope.projection, scope.epoch) := by
  have hr : takeBytes 8 (epochBytes scope.epoch ++ tail) = some (epochBytes scope.epoch, tail) :=
    takeBytes_append (length_bigEndian _ _)
  have hv : UInt64.ofNat (fromBigEndian (epochBytes scope.epoch)) = scope.epoch := by
    rw [epochBytes, fromBigEndian_bigEndian (epoch_lt _), UInt64.ofNat_toNat]
  have hok : ¬(scope.epoch = 0 ∨ ([] : Bytes) ≠ []) := by simp [hep]
  simp only [parseSourceScope, ScopeName.bytes, append_assoc, takeSegment_append hn.1,
    takeSegment_append hn.2, bind, Except.bind, hr, hv, ht, if_neg hok]
  rfl

theorem parseSourceScope_event {name : EventName} (h : name.Valid) : parseSourceScope name.key =
      .ok (name.scope.installation, name.scope.projection, name.scope.epoch) := by
  refine parseSourceScope_of_tail h.1.1 h.2.1 ?_
  have hs := takeSegment_append h.1.2 []
  rw [append_nil] at hs
  simp only [takeTail, takeStreamEpoch_append h.2.2, bind, Except.bind, hs]
  rfl

theorem parseSourceScope_stream {name : StreamName} (h : name.Named) (hep : name.scope.epoch ≠ 0) :
    parseSourceScope name.key =
      .ok (name.scope.installation, name.scope.projection, name.scope.epoch) := by
  refine parseSourceScope_of_tail h.1 hep ?_
  have hs := takeSegment_append h.2 []
  rw [append_nil] at hs
  simp only [takeTail, hs]
  rfl

theorem parseSourceScope_rate (h : scope.Named) (hep : scope.epoch ≠ 0) :
    parseSourceScope (scope.key kindRate) =
      .ok (scope.installation, scope.projection, scope.epoch) := by
  rw [ScopeName.key, ← append_nil scope.bytes]
  refine parseSourceScope_of_tail h hep ?_
  rfl

end Xolotl.Source
