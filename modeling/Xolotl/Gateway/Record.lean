import Xolotl.Lib.BigEndian
import Xolotl.Lib.Fallible
import Xolotl.Lib.OrderedAssoc
import Xolotl.Lib.Word
import Xolotl.Types.Taint

/-! Rows of request evidence: an encoded envelope with its charge and what names the request. -/

namespace Xolotl.Gateway

open Xolotl.Types Fallible List OrderedAssoc Word

def keyBytes : Nat := 64
def headerBytes : Nat := 12

inductive GatewayError
  | rejected (message : String)
  | limitExceeded (message : String)
  | indeterminate (message : String)
  deriving DecidableEq

abbrev Result (α : Type) := Except GatewayError α

/-- The serializers and the hash that rows are written with. Reading back what was written may fail,
but answers with nothing else. -/
structure Codec where
  writeTaint : TaintSet → Except String (List UInt8)
  readTaint : List UInt8 → Except String TaintSet
  writeValue : Value → Except String (List UInt8)
  readValue : List UInt8 → Except String Value
  /-- whether the text of a failure leaves the outcome unknown -/
  readFailure : Text → Except String Bool
  digest : List UInt8 → List UInt8
  faithful : ∀ value bytes read, writeValue value = .ok bytes → readValue bytes = .ok read →
    read = value

def checkedAdd (a b : Nat) : Option Nat := if a + b ≤ u64Max then some (a + b) else none

structure GatewayIdempotencyLimits where
  maxRecords : Nat
  maxBytes : Nat
  maxRecordBytes : Nat

def GatewayIdempotencyLimits.validate (limits : GatewayIdempotencyLimits) : Result Unit :=
  check (headerBytes ≤ limits.maxRecordBytes ∧
    (checkedAdd limits.maxRecordBytes keyBytes).any (· ≤ limits.maxBytes) = true)
    (.rejected "invalid idempotency storage capacity")

/-! ## Fields of a record value -/

def isMap : Value → Bool
  | .map _ => true
  | _ => false

def asStr : Value → Option Text
  | .str s => some s
  | _ => none

def strField (value : Value) (field : Text) : Option Text := (value.get field).bind asStr

def validateKey (key : Text) : Result Unit :=
  check (key.bytes.length = keyBytes ∧ key.bytes.all (fun byte => (48 ≤ byte && byte ≤ 57) ||
    (97 ≤ byte && byte ≤ 102)) = true) (.rejected "invalid idempotency storage key")

def stateName (value : Value) : Result Text := do
  check (isMap value = true) (.rejected "invalid idempotency record")
  check (strField value "schema" = some ("gateway-idempotency-v1" : Text))
    (.rejected "unsupported idempotency record schema")
  ["effective_key_hash", "submission_hash", "caller_material_hash"].forM fun key => do
    validateKey (← ofOption (strField value key.toList)
      (.rejected "missing idempotency fingerprint"))
  ["profile_name", "profile_rev", "principal_id", "surface_id"].forM fun key =>
    check ((strField value key.toList).any (· ≠ []) = true)
      (.rejected "missing idempotency request scope")
  check (strField value "caller_material_kind" = some ("idempotency_key" : Text) ∨
    strField value "caller_material_kind" = some ("submission_token" : Text))
    (.rejected "invalid idempotency material kind")
  ofOption (strField value "state") (.rejected "missing idempotency record state")

def requireState (value : Value) (required : Text) : Result Unit := do
  let state ← stateName value
  check (state = required) (.rejected "idempotency record is not in the required state")

def fingerprintFields : List String :=
  ["schema", "effective_key_hash", "submission_hash", "caller_material_kind",
    "caller_material_hash", "profile_name", "profile_rev", "principal_id", "surface_id"]

/-- A number as `u64::to_string` writes it; other spellings are not canonical. -/
def parseEpoch (text : Text) : Option Nat :=
  let epoch := text.foldl (fun n c => n * 10 + (c.toNat - 48)) 0
  if epoch ≤ u64Max ∧ (Nat.repr epoch).toList = text then some epoch else none

/-- A record without an epoch belongs to epoch zero. -/
def retryEpoch (value : Value) : Result Nat :=
  match value.get "retry_epoch" with
  | none => .ok 0
  | some epoch =>
    ofOption ((asStr epoch).bind parseEpoch) (.rejected "invalid idempotency retry epoch")

def littleEndian (n : Nat) : List UInt8 := (bigEndian 8 n).reverse

structure RecordMetadata where
  key : List UInt8
  fingerprint : List UInt8
  retryEpoch : Nat
  deriving DecidableEq

section Codec

variable (codec : Codec)

def RecordMetadata.read (value : Value) : Result RecordMetadata := do
  let _ ← stateName value
  let fields ← fingerprintFields.mapM fun field =>
    ofOption (strField value field.toList) (.rejected "missing idempotency fingerprint field")
  let key ← ofOption ((strField value "effective_key_hash").filter (·.bytes.length = keyBytes))
    (.rejected "invalid idempotency key fingerprint")
  let epoch ← Gateway.retryEpoch value
  let content := fields.flatMap fun field => littleEndian field.bytes.length ++ field.bytes
  return ⟨key.bytes, codec.digest (Text.bytes "xolotl-gateway-record-fingerprint-v1" ++ content ++
    littleEndian epoch), epoch⟩

/-! ## Envelopes -/

structure GatewayIdempotencyRecord where
  encoded : List UInt8
  chargedBytes : Nat
  metadata : RecordMetadata
  deriving DecidableEq

def encodingError (error : String) : GatewayError :=
  .limitExceeded ("idempotency record encoding failed: " ++ error)

def decodingError (error : String) : GatewayError :=
  .rejected ("invalid idempotency storage record: " ++ error)

def magic : List UInt8 := Text.bytes "XGI1"

/-- Write behind `used` bytes of a buffer that takes `limit` of them. -/
def boundedWrite (limit used : Nat) (text : Except String (List UInt8)) : Result (List UInt8) := do
  let bytes ← text.mapError encodingError
  check (bytes.length ≤ limit - used) (encodingError "idempotency record capacity exceeded")
  return bytes

def encode (value : TaintedValue) (limits : GatewayIdempotencyLimits) (reserved : Bool) :
    Result GatewayIdempotencyRecord := do
  let metadata ← RecordMetadata.read codec value.value
  let taint ← boundedWrite limits.maxRecordBytes headerBytes (codec.writeTaint value.taint)
  let content ← boundedWrite limits.maxRecordBytes (headerBytes + taint.length)
    (codec.writeValue value.value)
  let encoded := magic ++ littleEndian taint.length ++ taint ++ content
  let charged ← ofOption
    (checkedAdd keyBytes (if reserved then limits.maxRecordBytes else encoded.length))
    (.limitExceeded "idempotency byte charge overflow")
  return ⟨encoded, charged, metadata⟩

def pending (value : TaintedValue) (limits : GatewayIdempotencyLimits) :
    Result GatewayIdempotencyRecord := do
  limits.validate
  requireState value.value "pending"
  encode codec value limits true

def completed (value : TaintedValue) (limits : GatewayIdempotencyLimits) :
    Result GatewayIdempotencyRecord := do
  limits.validate
  requireState value.value "committed"
  encode codec value limits false

def sourceEnd (encoded : List UInt8) : Option Nat :=
  let length := fromBigEndian ((encoded.drop 4).take 8).reverse
  if headerBytes ≤ encoded.length ∧ headerBytes + length ≤ encoded.length then
    some (headerBytes + length)
  else none

def decodeRecord (encoded : List UInt8) : Result TaintedValue := do
  check (encoded.take 4 = magic) (.rejected "unsupported idempotency storage format")
  let length ← ofOption (sourceEnd encoded) (.rejected "invalid idempotency source envelope")
  let taint ← (codec.readTaint ((encoded.take length).drop headerBytes)).mapError decodingError
  let value ← (codec.readValue (encoded.drop length)).mapError decodingError
  return ⟨value, taint⟩

namespace GatewayIdempotencyRecord

variable (record : GatewayIdempotencyRecord)

def observe : Result TaintedValue := decodeRecord codec record.encoded

def validateBinding (key : Text) : Result Unit := do
  validateKey key
  check (record.metadata.key = key.bytes) (.rejected "idempotency record key binding mismatch")

def validateReplacement (original : Value) : Result Unit := do
  let metadata ← RecordMetadata.read codec original
  check (record.metadata.fingerprint = metadata.fingerprint)
    (.rejected "idempotency replacement fingerprint changed")

end GatewayIdempotencyRecord

/-! ## Retirement -/

def asBool : Value → Option Bool
  | .bool b => some b
  | _ => none

def resolved (unresolved : Value) : Bool :=
  (unresolved.get "identities_incomplete").bind asBool == some false &&
    match unresolved.get "operation_ids" with
    | some (.list ids) => ids.isEmpty
    | _ => false

def requireRetirable (value : Value) : Result Unit := do
  requireState value "committed"
  let unresolved ← ofOption ((value.get "unresolved_operations").filter isMap)
    (.rejected "missing idempotency effect evidence")
  check (resolved unresolved = true)
    (.rejected "unresolved idempotency responsibility cannot retire")
  if (strField value "outcome_status" = some ("done" : Text) ∨
      strField value "outcome_status" = some ("short" : Text)) ∧
      (value.get "outcome_value").isSome = true then .ok ()
  else if strField value "outcome_status" = some ("fail" : Text) then do
    let encoded ← ofOption (strField value "failure_json")
      (.rejected "missing idempotency failure evidence")
    let outcomeUnknown ← (codec.readFailure encoded).mapError decodingError
    check (outcomeUnknown = false) (.rejected "unknown idempotency outcome cannot retire")
  else .error (.rejected "missing idempotency outcome evidence")

def retiredValue (fields : List (Text × Value)) (epoch : Option Value) : Value :=
  .map <| OrderedAssoc.ofEntries <| fields ++ [(("state" : Text), Value.str "retired")] ++
    (epoch.map fun epoch => (("retry_epoch" : Text), epoch)).toList

def GatewayIdempotencyRecord.retired (record : GatewayIdempotencyRecord)
    (limits : GatewayIdempotencyLimits) : Result GatewayIdempotencyRecord := do
  let value ← record.observe codec
  requireRetirable codec value.value
  let fields ← fingerprintFields.mapM fun key => do
    return (key.toList, ← ofOption (value.value.get key.toList)
      (.rejected "missing retirement fingerprint"))
  encode codec ⟨retiredValue fields (value.value.get "retry_epoch"), value.taint⟩ limits false

def GatewayIdempotencyRecord.reclaimable (record : GatewayIdempotencyRecord) (current : Nat) :
    Result Bool :=
  if current ≤ record.metadata.retryEpoch then .ok false
  else do
    let value ← record.observe codec
    let state ← stateName value.value
    return state = "retired" || (requireRetirable codec value.value).isOk

end Codec

/-! ## What an envelope holds -/

variable {codec : Codec} {value : TaintedValue} {limits : GatewayIdempotencyLimits}
  {reserved : Bool}
  {record : GatewayIdempotencyRecord}

theorem boundedWrite_ok {limit used : Nat} {text : Except String (List UInt8)}
    {bytes : List UInt8} :
    boundedWrite limit used text = .ok bytes ↔ text = .ok bytes ∧ bytes.length ≤ limit - used := by
  simp only [boundedWrite, bind_ok, mapError_ok, check_ok, exists_const]
  constructor
  · rintro ⟨_, ht, hle, h⟩
    cases h
    exact ⟨ht, hle⟩
  · rintro ⟨ht, hle⟩
    exact ⟨bytes, ht, hle, rfl⟩

theorem checkedAdd_eq_some {a b c : Nat} :
    checkedAdd a b = some c ↔ a + b ≤ u64Max ∧ a + b = c := by
  rw [checkedAdd, Option.ite_none_right_eq_some, Option.some.injEq]

theorem strField_of_stateName {value : Value} {state : Text} (h : stateName value = .ok state) :
    strField value "state" = some state := by
  simp only [stateName, bind_ok, ofOption_ok] at h
  obtain ⟨-, -, -, -, -, -, -, -, -, -, h⟩ := h
  exact h

theorem strField_of_requireState {value : Value} {state : Text}
    (h : requireState value state = .ok ()) : strField value "state" = some state := by
  obtain ⟨_, hst, hc⟩ := bind_ok.mp h
  rw [← check_ok.mp hc]
  exact strField_of_stateName hst

theorem get_map (members : List (Text × Value)) (key : Text) :
    (Value.map members).get key = OrderedAssoc.lookup members key := by
  rw [Value.get]
  induction members with
  | nil => rfl
  | cons member members ih =>
    rw [List.find?_cons, OrderedAssoc.lookup]
    by_cases heq : member.1 = key
    · rw [if_pos heq, beq_iff_eq.mpr heq]
      rfl
    · rw [if_neg heq, beq_eq_false_iff_ne.mpr heq]
      exact ih

theorem strField_retiredValue (fields : List (Text × Value)) (epoch : Option Value) :
    strField (retiredValue fields epoch) "state" = some ("retired" : Text) := by
  have hst : OrderedAssoc.lookup (OrderedAssoc.ofEntries
      (fields ++ [(("state" : Text), Value.str "retired")])) "state" = some (.str "retired") := by
    rw [OrderedAssoc.ofEntries, foldl_append]
    exact (lookup_insert (sorted_ofEntries fields) _ _ _).trans (if_pos rfl)
  rw [strField, retiredValue, get_map]
  cases epoch with
  | none =>
    rw [Option.map_none, Option.toList_none, append_nil, hst]
    rfl
  | some epoch =>
    have hi := lookup_insert (sorted_ofEntries
      (fields ++ [(("state" : Text), Value.str "retired")]))
      ("retry_epoch" : Text) epoch ("state" : Text)
    rw [hst] at hi
    rw [Option.map_some, Option.toList_some, OrderedAssoc.ofEntries, foldl_append, foldl_cons,
      foldl_nil, ← OrderedAssoc.ofEntries, hi]
    rfl

theorem decodeRecord_value {taint content : List UInt8} {read : TaintedValue}
    (hl : taint.length < 256 ^ 8)
    (h : decodeRecord codec (magic ++ littleEndian taint.length ++ taint ++ content) = .ok read) :
    codec.readValue content = .ok read.value := by
  have hm : magic.length = 4 := by decide
  have hle : (littleEndian taint.length).length = 8 := by
    rw [littleEndian, length_reverse, length_bigEndian]
  have he : sourceEnd (magic ++ littleEndian taint.length ++ taint ++ content) =
      some (headerBytes + taint.length) := by
    have hn : ((magic ++ littleEndian taint.length ++ taint ++ content).drop 4).take 8 =
        littleEndian taint.length := by
      rw [append_assoc, append_assoc, drop_left' hm, take_left' hle]
    rw [sourceEnd, hn, littleEndian, reverse_reverse, fromBigEndian_bigEndian hl, if_pos]
    simp only [length_append, length_reverse, length_bigEndian, headerBytes]
    omega
  have hd : (magic ++ littleEndian taint.length ++ taint ++ content).drop
      (headerBytes + taint.length) = content := by
    apply drop_left'
    simp only [length_append, hm, hle, headerBytes]
  simp only [decodeRecord, bind_ok, he, mapError_ok] at h
  obtain ⟨-, -, _, hln, _, -, value, hv, h⟩ := h
  cases hln
  rw [hd] at hv
  cases h
  exact hv

structure Encodes (codec : Codec) (limits : GatewayIdempotencyLimits) (value : Value)
    (reserved : Bool)
    (record : GatewayIdempotencyRecord) : Prop where
  metadata : RecordMetadata.read codec value = .ok record.metadata
  length_le : record.encoded.length ≤ limits.maxRecordBytes
  charged : record.chargedBytes =
    keyBytes + if reserved then limits.maxRecordBytes else record.encoded.length
  faithful : ∀ read, record.observe codec = .ok read → read.value = value

theorem validate_ok (h : limits.validate = .ok ()) :
    headerBytes ≤ limits.maxRecordBytes ∧ limits.maxRecordBytes + keyBytes ≤ u64Max := by
  obtain ⟨hh, ha⟩ := check_ok.mp h
  obtain ⟨bytes, hbs, -⟩ := Option.any_eq_true _ _ |>.mp ha
  exact ⟨hh, (checkedAdd_eq_some.mp hbs).1⟩

theorem encodes_of_encode (hl : limits.validate = .ok ())
    (h : encode codec value limits reserved = .ok record) :
    Encodes codec limits value.value reserved record := by
  obtain ⟨hh, hw⟩ := validate_ok hl
  simp only [encode, bind_ok, boundedWrite_ok, ofOption_ok, checkedAdd_eq_some] at h
  obtain ⟨metadata, hm, taint, ⟨-, ht⟩, content, ⟨hco, hf⟩, charged, ⟨-, hc⟩, h⟩ := h
  cases h
  have hle : (magic ++ littleEndian taint.length ++ taint ++ content).length =
      headerBytes + taint.length + content.length := by
    simp only [length_append]
    rfl
  refine ⟨hm, ?_, hc.symm, ?_⟩
  · rw [hle]
    omega
  · intro read hr
    have hs : taint.length < 256 ^ 8 := by
      have hma : u64Max < 256 ^ 8 := by decide
      omega
    exact codec.faithful _ _ _ hco (decodeRecord_value hs hr)

end Xolotl.Gateway
