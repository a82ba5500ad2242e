import Xolotl.Gateway.Record
import Xolotl.Lib.SelfDelimiting

/-! Sealed frames of an external session: what a credential seals and opens, and the window of
sequence numbers that keeps a frame from being opened twice. -/

namespace Xolotl.Gateway

open Fallible List Word

inductive EnvelopeError
  | wrongInstallation
  | revokedGeneration
  | crypto
  | badAead
  | invalidAad
  | replay
  | sequenceTooOld
  | sequenceTooFarAhead
  | invalidReplayWindow
  | invalidKeyEpoch
  deriving DecidableEq

/-- Metadata of one frame. No field has more bytes than a `u64` counts. -/
@[ext] structure EnvelopeAad where
  version : UInt32
  projectionId : Text
  role : Text
  sessionId : Text
  seq : UInt64
  frameType : Text
  bindingGeneration : UInt64
  credentialGeneration : UInt64
  transcriptHash : List UInt8
  keyEpoch : UInt64
  direction : Text
  fits : ∀ bytes ∈ [projectionId.bytes, role.bytes, sessionId.bytes, frameType.bytes,
    transcriptHash, direction.bytes], bytes.length ≤ u64Max

structure SecureEnvelope where
  installationId : Text
  generation : UInt64
  aad : EnvelopeAad
  noncePrefix : List UInt8
  ciphertext : List UInt8

def validateEnvelopeAad (generation : UInt64) (aad : EnvelopeAad) : Except EnvelopeError Unit :=
  check (aad.version = 1 ∧ aad.projectionId ≠ [] ∧ aad.role ≠ [] ∧ aad.sessionId ≠ [] ∧
    aad.frameType ≠ [] ∧ aad.credentialGeneration = generation ∧ aad.transcriptHash.length = 32 ∧
    (aad.direction = "client_to_daemon" ∨ aad.direction = "daemon_to_client")) .invalidAad

def aadPushBytes (out bytes : List UInt8) : List UInt8 := out ++ littleEndian bytes.length ++ bytes

def aadFields (installationId : Text) (generation : UInt64) (aad : EnvelopeAad) :
    List (List UInt8) :=
  [Text.bytes "xolotl-secure-external-envelope-v1", installationId.bytes,
    littleEndian generation.toNat, (bigEndian 4 aad.version.toNat).reverse,
    aad.projectionId.bytes, aad.role.bytes, aad.sessionId.bytes, littleEndian aad.seq.toNat,
    aad.frameType.bytes, littleEndian aad.bindingGeneration.toNat,
    littleEndian aad.credentialGeneration.toNat, aad.transcriptHash,
    littleEndian aad.keyEpoch.toNat, aad.direction.bytes]

def aadBytes (installationId : Text) (generation : UInt64) (aad : EnvelopeAad) : List UInt8 :=
  (aadFields installationId generation aad).foldl aadPushBytes []

def nonceBytes (noncePrefix : List UInt8) (seq : UInt64) : List UInt8 :=
  noncePrefix.take 4 ++ List.zipWith (· ^^^ ·) (noncePrefix.drop 4) (bigEndian 8 seq.toNat)

namespace SecureEnvelope

variable (env : SecureEnvelope)

def authenticated : List UInt8 := aadBytes env.installationId env.generation env.aad

def nonce : List UInt8 := nonceBytes env.noncePrefix env.aad.seq

end SecureEnvelope

/-! ## The window of sequence numbers -/

structure SecureEnvelopeReplayWindow where
  windowSize : Nat
  highest : Option Nat
  seen : BitVec 128
  sized : 0 < windowSize ∧ windowSize ≤ 128

inductive ReplayWindowDecision
  | first (seq : Nat)
  | advance (advance : Nat)
  | within (offset : Nat)

namespace SecureEnvelopeReplayWindow

def new (windowSize : Nat) : Except EnvelopeError SecureEnvelopeReplayWindow :=
  if h : 0 < windowSize ∧ windowSize ≤ 128 then .ok ⟨windowSize, none, 0, h⟩
  else .error .invalidReplayWindow

variable (window : SecureEnvelopeReplayWindow)

def check (seq : Nat) : Except EnvelopeError ReplayWindowDecision :=
  match window.highest with
  | none => .ok (.first seq)
  | some highest =>
    if highest < seq then
      if window.windowSize ≤ seq - highest then .error .sequenceTooFarAhead
      else .ok (.advance (seq - highest))
    else if window.windowSize ≤ highest - seq then .error .sequenceTooOld
    else if window.seen &&& 1#128 <<< (highest - seq) ≠ 0 then .error .replay
    else .ok (.within (highest - seq))

def mask : BitVec 128 :=
  if window.windowSize = 128 then BitVec.allOnes 128 else 1#128 <<< window.windowSize - 1#128

def commit : ReplayWindowDecision → SecureEnvelopeReplayWindow
  | .first seq => { window with highest := some seq, seen := 1 }
  | .advance advance =>
    { window with
      highest := window.highest.map (· + advance)
      seen := (window.seen <<< advance ||| 1) &&& window.mask }
  | .within offset => { window with seen := (window.seen ||| 1#128 <<< offset) &&& window.mask }

end SecureEnvelopeReplayWindow

structure SecureEnvelopeEpochGate where
  currentKeyEpoch : UInt64
  drainFrameTypes : List Text

/-- A frame of the epoch before passes if its type may still drain. -/
def SecureEnvelopeEpochGate.check (gate : SecureEnvelopeEpochGate) (aad : EnvelopeAad) :
    Except EnvelopeError Unit :=
  if aad.keyEpoch = gate.currentKeyEpoch then .ok ()
  else Fallible.check (aad.keyEpoch.toNat + 1 = gate.currentKeyEpoch.toNat ∧
    (aad.frameType = "control.config_ack" ∨ aad.frameType ∈ gate.drainFrameTypes)) .invalidKeyEpoch

/-! ## Credentials -/

/-- Encryption under the key derived from the secret and the authenticated bytes, over these bytes,
a nonce and a message. -/
structure Aead where
  encrypt : (psk authenticated nonce message : List UInt8) → Option (List UInt8)
  decrypt : (psk authenticated nonce ciphertext : List UInt8) → Option (List UInt8)

structure ExternalCredential where
  installationId : Text
  generation : UInt64
  psk : List UInt8
  fits : installationId.bytes.length ≤ u64Max

namespace ExternalCredential

variable (aead : Aead) (credential : ExternalCredential)

def sealWithAad (payload : List UInt8) (aad : EnvelopeAad) (random : Option (List UInt8)) :
    Except EnvelopeError SecureEnvelope := do
  validateEnvelopeAad credential.generation aad
  let noncePrefix ← ofOption random .crypto
  let authenticated := aadBytes credential.installationId credential.generation aad
  let ciphertext ← ofOption (aead.encrypt credential.psk authenticated
    (nonceBytes noncePrefix aad.seq) payload) .crypto
  return ⟨credential.installationId, credential.generation, aad, noncePrefix, ciphertext⟩

def «open» (env : SecureEnvelope) (validFloor : UInt64) : Except EnvelopeError (List UInt8) := do
  check (env.installationId = credential.installationId) .wrongInstallation
  check (validFloor ≤ env.generation) .revokedGeneration
  check (env.generation = credential.generation) .badAead
  ofOption (aead.decrypt credential.psk env.authenticated env.nonce env.ciphertext) .badAead

/-- The window moves only once everything passed. -/
def openWithReplayWindowAndEpochGate (env : SecureEnvelope) (validFloor : UInt64)
    (replayWindow : SecureEnvelopeReplayWindow) (epochGate : SecureEnvelopeEpochGate) :
    Except EnvelopeError (List UInt8) × SecureEnvelopeReplayWindow :=
  let attempt : Except EnvelopeError (List UInt8 × ReplayWindowDecision) := do
    validateEnvelopeAad env.generation env.aad
    epochGate.check env.aad
    let decision ← replayWindow.check env.aad.seq.toNat
    let plaintext ← credential.open aead env validFloor
    return (plaintext, decision)
  match attempt with
  | .error e => (.error e, replayWindow)
  | .ok (plaintext, decision) => (.ok plaintext, replayWindow.commit decision)

end ExternalCredential

/-! ## The metadata is told from the authenticated bytes -/

theorem littleEndian_inj {m n : UInt64} (h : littleEndian m.toNat = littleEndian n.toNat) : m = n :=
  UInt64.toNat_inj.mp (bigEndian_inj m.toNat_lt n.toNat_lt (reverse_injective h))

theorem length_littleEndian (n : Nat) : (littleEndian n).length = 8 := by
  rw [littleEndian, length_reverse, length_bigEndian]

theorem aadPushBytes_delimiting : SelfDelimiting (fun bytes : List UInt8 => bytes.length ≤ u64Max)
    (fun bytes => littleEndian bytes.length ++ bytes) := by
  have hc : SelfDelimiting (· ≤ u64Max) littleEndian := by
    refine .of_length length_littleEndian fun m n hm hn h => ?_
    exact bigEndian_inj (Nat.lt_succ_of_le hm) (Nat.lt_succ_of_le hn) (reverse_injective h)
  exact hc.prefixed

variable {installationId : Text} {generation : UInt64} {aad aad' : EnvelopeAad}

theorem aadBytes_eq : aadBytes installationId generation aad =
    (aadFields installationId generation aad).flatMap fun bytes =>
      littleEndian bytes.length ++ bytes := by
  rw [aadBytes, flatMap_eq_foldl]
  congr 1
  funext out bytes
  rw [aadPushBytes, append_assoc]

theorem aadFields_fit (h : installationId.bytes.length ≤ u64Max) :
    ∀ bytes ∈ aadFields installationId generation aad, bytes.length ≤ u64Max := by
  have hf := aad.fits
  have hn : (Text.bytes "xolotl-secure-external-envelope-v1").length ≤ u64Max := by decide
  have height : 8 ≤ u64Max := by decide
  have hfo : 4 ≤ u64Max := by decide
  simp only [forall_mem_cons] at hf
  simp only [aadFields, forall_mem_cons, length_littleEndian, length_reverse,
    length_bigEndian, h, hn, height, hfo, hf, true_and]
  exact forall_mem_nil _

theorem aadBytes_injective (h : installationId.bytes.length ≤ u64Max)
    (heq : aadBytes installationId generation aad = aadBytes installationId generation aad') :
    aad = aad' := by
  rw [aadBytes_eq, aadBytes_eq] at heq
  have hf := aadPushBytes_delimiting.flatMap (by rfl) (aadFields_fit h) (aadFields_fit h) heq
  simp only [aadFields, List.cons.injEq] at hf
  obtain ⟨-, -, -, hv, hp, hr, hs, hse, ht, hb, hc, hh, hep, hd, -⟩ := hf
  have hv := bigEndian_inj aad.version.toNat_lt aad'.version.toNat_lt (reverse_injective hv)
  exact EnvelopeAad.ext (UInt32.toNat_inj.mp hv) (Text.bytes_injective hp)
    (Text.bytes_injective hr) (Text.bytes_injective hs) (littleEndian_inj hse)
    (Text.bytes_injective ht) (littleEndian_inj hb) (littleEndian_inj hc) hh
    (littleEndian_inj hep) (Text.bytes_injective hd)

/-! ## The window is the set of opened numbers, as far back as it reaches -/

namespace SecureEnvelopeReplayWindow

/-- Bit `k` stands for the number `k` below the highest. -/
def Marks (size highest : Nat) (seen : BitVec 128) (opened : List Nat) : Prop :=
  ∀ offset < size, offset ≤ highest → (seen.getLsbD offset = true ↔ highest - offset ∈ opened)

structure Tracks (window : SecureEnvelopeReplayWindow) (opened : List Nat) : Prop where
  nodup : opened.Nodup
  empty : window.highest = none → opened = []
  newest : ∀ highest ∈ window.highest, highest ∈ opened ∧ (∀ seq ∈ opened, seq ≤ highest) ∧
    Marks window.windowSize highest window.seen opened

variable {window : SecureEnvelopeReplayWindow} {opened : List Nat} {seq : Nat}
  {decision : ReplayWindowDecision}

theorem getLsbD_mask {offset : Nat} (h : offset < window.windowSize) :
    window.mask.getLsbD offset = true := by
  have ho : offset < 128 := Nat.lt_of_lt_of_le h window.sized.2
  unfold mask
  split
  · rw [BitVec.getLsbD_allOnes, decide_eq_true ho]
  · have hb : 1#128 <<< window.windowSize = BitVec.ofNat 128 (2 ^ window.windowSize) := by
      simp [← BitVec.toNat_inj, Nat.shiftLeft_eq]
    rw [hb, BitVec.ofNat_sub_ofNat_of_le _ 1 (by decide) Nat.one_le_two_pow, BitVec.getLsbD_ofNat]
    simp [h, ho]

theorem and_bit {seen : BitVec 128} {offset : Nat} (h : offset < 128) :
    seen &&& 1#128 <<< offset ≠ 0 ↔ seen.getLsbD offset = true := by
  rw [← BitVec.twoPow_eq, BitVec.and_twoPow]
  split
  next hb =>
    have hne : (BitVec.twoPow 128 offset).getLsbD offset = true := by
      simp [h]
    refine iff_of_true (fun hzero => ?_) hb
    simp [hzero] at hne
  next hb => exact iff_of_false (fun hne => hne rfl) hb

theorem marks_first (size seq : Nat) : Marks size seq 1 [seq] := by
  intro offset _ ho
  have hzero : offset = 0 ↔ seq - offset = seq := by omega
  simp [hzero]

variable {highest : Nat}

theorem Marks.advance (h : Marks window.windowSize highest window.seen opened)
    (hle : ∀ seq ∈ opened, seq ≤ highest) (hse : highest < seq) :
    Marks window.windowSize seq ((window.seen <<< (seq - highest) ||| 1) &&& window.mask)
      (seq :: opened) := by
  intro offset ho hl
  have hw : offset < 128 := Nat.lt_of_lt_of_le ho window.sized.2
  have hs : offset = 0 ↔ seq - offset = seq := by omega
  simp only [BitVec.getLsbD_and, BitVec.getLsbD_or, BitVec.getLsbD_shiftLeft, getLsbD_mask ho]
  by_cases hold : offset < seq - highest
  · have hn : seq - offset ∉ opened := fun hm => by
      have := hle _ hm
      omega
    simp [hold, hn, hs]
  · have hb := h (offset - (seq - highest)) (by omega) (by omega)
    have hsa : highest - (offset - (seq - highest)) = seq - offset := by omega
    simp [hold, hw, hb, hsa, hs, or_comm]

theorem Marks.within (h : Marks window.windowSize highest window.seen opened) (hse : seq ≤ highest)
    (hn : highest - seq < window.windowSize) :
    Marks window.windowSize highest ((window.seen ||| 1#128 <<< (highest - seq)) &&& window.mask)
      (seq :: opened) := by
  intro offset ho hl
  have hw : highest - seq < 128 := Nat.lt_of_lt_of_le hn window.sized.2
  have hs : highest - seq = offset ↔ highest - offset = seq := by omega
  rw [← BitVec.twoPow_eq]
  simp [getLsbD_mask ho, h offset ho hl, hw, hs, or_comm]

theorem Tracks.commit (h : window.Tracks opened) (hc : window.check seq = .ok decision) :
    (window.commit decision).Tracks (seq :: opened) := by
  have hsi := window.sized.2
  unfold check at hc
  split at hc
  next hn =>
    obtain rfl := Except.ok.inj hc
    rw [h.empty hn]
    refine ⟨nodup_singleton seq, nofun, ?_⟩
    rintro _ ⟨⟩
    exact ⟨mem_singleton_self seq, fun _ hm => (mem_singleton.mp hm).le, marks_first _ seq⟩
  next highest hs =>
    obtain ⟨hm, hle, hmarks⟩ := h.newest highest hs
    by_cases hse : highest < seq
    · rw [if_pos hse] at hc
      split at hc
      · cases hc
      obtain rfl := Except.ok.inj hc
      have hnw : ((window.commit (.advance (seq - highest))).highest) = some seq := by
        simp only [SecureEnvelopeReplayWindow.commit, hs, Option.map_some]
        rw [Nat.add_sub_cancel' hse.le]
      refine ⟨h.nodup.cons fun ho => (hle seq ho).not_gt hse, by simp [hnw], ?_⟩
      rw [hnw]
      rintro _ ⟨⟩
      refine ⟨mem_cons_self, ?_, hmarks.advance hle hse⟩
      exact forall_mem_cons.mpr ⟨le_rfl, fun old hold => (hle old hold).trans hse.le⟩
    · rw [if_neg hse] at hc
      split at hc
      · cases hc
      next hne =>
        split at hc
        · cases hc
        next hb =>
          obtain rfl := Except.ok.inj hc
          rw [and_bit (by omega), hmarks _ (by omega) (Nat.sub_le ..),
            Nat.sub_sub_self (Nat.not_lt.mp hse)] at hb
          refine ⟨h.nodup.cons hb, fun hn => ?_, fun newest hnw => ?_⟩
          · cases hs.symm.trans hn
          · cases hs.symm.trans hnw
            exact ⟨mem_cons_of_mem seq hm,
              forall_mem_cons.mpr ⟨Nat.not_lt.mp hse, hle⟩,
              hmarks.within (Nat.not_lt.mp hse) (Nat.not_le.mp hne)⟩

theorem Tracks.check (h : window.Tracks opened) (hf : seq ∉ opened)
    (hn : ∀ highest ∈ opened, (∀ seq ∈ opened, seq ≤ highest) →
      seq < highest + window.windowSize ∧ highest < seq + window.windowSize) :
    ∃ decision, window.check seq = .ok decision := by
  have hsi := window.sized.2
  unfold SecureEnvelopeReplayWindow.check
  split
  · exact ⟨_, rfl⟩
  next highest hs =>
    obtain ⟨hm, hle, hmarks⟩ := h.newest highest hs
    obtain ⟨ha, hb⟩ := hn highest hm hle
    by_cases hse : highest < seq
    · rw [if_pos hse, if_neg (by omega)]
      exact ⟨_, rfl⟩
    · rw [if_neg hse, if_neg (by omega), if_neg]
      · exact ⟨_, rfl⟩
      · rw [and_bit (by omega), hmarks _ (by omega) (Nat.sub_le ..),
          Nat.sub_sub_self (Nat.not_lt.mp hse)]
        exact hf

theorem commit_windowSize : (window.commit decision).windowSize = window.windowSize := by
  cases decision <;> rfl

end SecureEnvelopeReplayWindow

/-! ## Frames presented to one window -/

/-- Keys and encryption are ideal: decryption answers to what the holder of the credential sealed,
and to nothing else. -/
structure Ideal (aead : Aead) (credential : ExternalCredential)
    (sealed : List (List UInt8 × SecureEnvelope)) : Prop where
  honest : ∀ frame ∈ sealed, ∃ random,
    credential.sealWithAad aead frame.1 frame.2.aad random = .ok frame.2
  decrypts : ∀ authenticated nonce ciphertext payload,
    aead.decrypt credential.psk authenticated nonce ciphertext = some payload ↔
      ∃ frame ∈ sealed, frame.1 = payload ∧ frame.2.authenticated = authenticated ∧
        frame.2.nonce = nonce ∧ frame.2.ciphertext = ciphertext

structure Presented where
  env : SecureEnvelope
  validFloor : UInt64
  epochGate : SecureEnvelopeEpochGate

structure Stream where
  window : SecureEnvelopeReplayWindow
  opened : List (SecureEnvelope × List UInt8)

namespace Stream

variable (aead : Aead) (credential : ExternalCredential) (stream : Stream)

def seqs : List Nat := stream.opened.map (·.1.aad.seq.toNat)

def attempt (next : Presented) : Except EnvelopeError (List UInt8) × SecureEnvelopeReplayWindow :=
  credential.openWithReplayWindowAndEpochGate aead next.env next.validFloor stream.window
    next.epochGate

def present (next : Presented) : Stream :=
  match stream.attempt aead credential next with
  | (.error _, window) => { stream with window }
  | (.ok payload, window) => ⟨window, (next.env, payload) :: stream.opened⟩

def presents (window : SecureEnvelopeReplayWindow) (frames : List Presented) : Stream :=
  frames.foldl (present aead credential) ⟨window, []⟩

variable {aead : Aead} {credential : ExternalCredential} {stream : Stream} {next : Presented}
  {payload : List UInt8} {window : SecureEnvelopeReplayWindow}
  {sealed : List (List UInt8 × SecureEnvelope)} {size : Nat}

theorem attempt_eq_ok : stream.attempt aead credential next = (.ok payload, window) ↔
    validateEnvelopeAad next.env.generation next.env.aad = .ok () ∧
      next.epochGate.check next.env.aad = .ok () ∧
      (∃ decision, stream.window.check next.env.aad.seq.toNat = .ok decision ∧
        stream.window.commit decision = window) ∧
      credential.open aead next.env next.validFloor = .ok payload := by
  unfold attempt ExternalCredential.openWithReplayWindowAndEpochGate
  dsimp only
  constructor
  · intro h
    split at h
    · cases h
    next ha =>
      cases h
      simp only [bind_ok] at ha
      obtain ⟨_, hvalid, _, hgate, _, hc, _, ho, hp⟩ := ha
      cases hp
      exact ⟨hvalid, hgate, ⟨_, hc, rfl⟩, ho⟩
  · rintro ⟨hvalid, hgate, ⟨decision, hc, rfl⟩, ho⟩
    simp only [hvalid, hgate, hc, ho]
    rfl

theorem attempt_error {e : EnvelopeError} (h : (stream.attempt aead credential next).1 = .error e) :
    (stream.attempt aead credential next).2 = stream.window := by
  unfold attempt ExternalCredential.openWithReplayWindowAndEpochGate at h ⊢
  dsimp only at h ⊢
  split at h
  · rfl
  · cases h

theorem attempt_gate (hv : validateEnvelopeAad next.env.generation next.env.aad = .ok ())
    (hg : next.epochGate.check next.env.aad ≠ .ok ()) :
    (stream.attempt aead credential next).1 = .error .invalidKeyEpoch := by
  have he : next.epochGate.check next.env.aad = .error .invalidKeyEpoch := by
    unfold SecureEnvelopeEpochGate.check Fallible.check at hg ⊢
    split at hg
    · exact absurd rfl hg
    · split at hg
      · exact absurd rfl hg
      · rename_i hc hd
        rw [if_neg hc, if_neg hd]
  unfold attempt ExternalCredential.openWithReplayWindowAndEpochGate
  simp only [hv, he]
  rfl

variable {env : SecureEnvelope} {validFloor : UInt64}

theorem open_eq_ok : credential.open aead env validFloor = .ok payload ↔
      env.installationId = credential.installationId ∧ validFloor ≤ env.generation ∧
        env.generation = credential.generation ∧
        aead.decrypt credential.psk env.authenticated env.nonce env.ciphertext = some payload := by
  simp [ExternalCredential.open, bind_ok]

theorem sealWithAad_ok {aad : EnvelopeAad} {random : Option (List UInt8)}
    (h : credential.sealWithAad aead payload aad random = .ok env) :
    validateEnvelopeAad credential.generation aad = .ok () ∧
      env.installationId = credential.installationId ∧ env.generation = credential.generation := by
  simp only [ExternalCredential.sealWithAad, bind_ok] at h
  obtain ⟨_, hvalid, _, _, _, _, hp⟩ := h
  cases hp
  exact ⟨hvalid, rfl, rfl⟩

/-- What was opened was sealed, with the same metadata. -/
def Genuine (sealed : List (List UInt8 × SecureEnvelope)) (opened : SecureEnvelope × List UInt8) :
    Prop :=
  ∃ frame ∈ sealed, frame.1 = opened.2 ∧ frame.2.installationId = opened.1.installationId ∧
    frame.2.generation = opened.1.generation ∧ frame.2.aad = opened.1.aad

theorem genuine_of_open (hi : Ideal aead credential sealed)
    (h : credential.open aead env validFloor = .ok payload) : Genuine sealed (env, payload) := by
  obtain ⟨hin, -, hg, hd⟩ := open_eq_ok.mp h
  obtain ⟨frame, hf, hp, ha, -, -⟩ := (hi.decrypts ..).mp hd
  obtain ⟨random, hse⟩ := hi.honest frame hf
  obtain ⟨-, hs, hse'⟩ := sealWithAad_ok hse
  refine ⟨frame, hf, hp, hs.trans hin.symm, hse'.trans hg.symm, ?_⟩
  unfold SecureEnvelope.authenticated at ha
  rw [hs, hse', hin, hg] at ha
  exact aadBytes_injective credential.fits ha

structure Sound (sealed : List (List UInt8 × SecureEnvelope)) (size : Nat) (stream : Stream) :
    Prop where
  sized : stream.window.windowSize = size
  tracks : stream.window.Tracks stream.seqs
  genuine : ∀ opened ∈ stream.opened, Genuine sealed opened

theorem Sound.present (hi : Ideal aead credential sealed) (h : Sound sealed size stream)
    (next : Presented) : Sound sealed size (stream.present aead credential next) := by
  unfold Stream.present
  split
  next e window ha =>
    have hw : window = stream.window := by
      rw [← attempt_error (congrArg Prod.fst ha), ha]
    rw [hw]
    exact h
  next payload window ha =>
    obtain ⟨-, -, ⟨decision, hc, rfl⟩, ho⟩ := attempt_eq_ok.mp ha
    exact ⟨SecureEnvelopeReplayWindow.commit_windowSize.trans h.sized, h.tracks.commit hc,
      forall_mem_cons.mpr ⟨genuine_of_open hi ho, h.genuine⟩⟩

theorem sound_presents (hi : Ideal aead credential sealed)
    (hn : SecureEnvelopeReplayWindow.new size = .ok window) (frames : List Presented) :
    Sound sealed size (presents aead credential window frames) := by
  have hs : Sound sealed size ⟨window, []⟩ := by
    unfold SecureEnvelopeReplayWindow.new at hn
    split at hn
    · cases hn
      exact ⟨rfl, ⟨nodup_nil, fun _ => rfl, nofun⟩, nofun⟩
    · cases hn
  exact List.foldlRecOn (motive := Sound sealed size) frames _ hs
    fun _ h next _ => h.present hi next

/-- Whatever is presented to a window, it opens no number twice, only what was sealed with the same
metadata, keeps the window when it rejects, and takes every genuine frame that is near the highest
opened number and was not opened, if its generation and its epoch are still accepted. A genuine
frame of another epoch is rejected for that. -/
theorem frames_cannot_be_replayed (hideal : Ideal aead credential sealed)
    (hnew : SecureEnvelopeReplayWindow.new size = .ok window) (frames : List Presented) :
    let stream := presents aead credential window frames
    stream.seqs.Nodup ∧ (∀ opened ∈ stream.opened, Genuine sealed opened) ∧
      ∀ next, (∀ e, (stream.attempt aead credential next).1 = .error e →
          (stream.attempt aead credential next).2 = stream.window) ∧
        ∀ payload, (payload, next.env) ∈ sealed →
          (next.epochGate.check next.env.aad ≠ .ok () →
            (stream.attempt aead credential next).1 = .error .invalidKeyEpoch) ∧
          (next.validFloor ≤ next.env.generation →
          next.epochGate.check next.env.aad = .ok () → next.env.aad.seq.toNat ∉ stream.seqs →
          (∀ highest ∈ stream.seqs, (∀ seq ∈ stream.seqs, seq ≤ highest) →
            next.env.aad.seq.toNat < highest + size ∧ highest < next.env.aad.seq.toNat + size) →
          (stream.attempt aead credential next).1 = .ok payload) := by
  intro stream
  have hsound : Sound sealed size stream := sound_presents hideal hnew frames
  refine ⟨hsound.tracks.nodup, hsound.genuine, fun next => ⟨fun _ => attempt_error, ?_⟩⟩
  intro payload hframe
  obtain ⟨random, hseal⟩ := hideal.honest _ hframe
  obtain ⟨hvalid, hinstallation, hgeneration⟩ := sealWithAad_ok hseal
  rw [← hgeneration] at hvalid
  refine ⟨attempt_gate hvalid, fun hfloor hgate hfresh hnear => ?_⟩
  obtain ⟨decision, hcheck⟩ := hsound.tracks.check hfresh (by rwa [hsound.sized])
  have hdecrypt := (hideal.decrypts ..).mpr ⟨_, hframe, rfl, rfl, rfl, rfl⟩
  have hopen := open_eq_ok.mpr ⟨hinstallation, hfloor, hgeneration, hdecrypt⟩
  exact congrArg Prod.fst
    (attempt_eq_ok.mpr ⟨hvalid, hgate, ⟨decision, hcheck, rfl⟩, hopen⟩)

/-! ## Two sealed frames -/

def listed (sealed : List SecureEnvelope) : Aead where
  encrypt _ _ _ message := some message
  decrypt _ authenticated nonce ciphertext :=
    if ∃ env ∈ sealed, env.authenticated = authenticated ∧ env.nonce = nonce ∧
      env.ciphertext = ciphertext then some ciphertext else none

def homeCredential : ExternalCredential := ⟨"home", 1, [], by decide⟩

def homeEnvelope (seq keyEpoch : UInt64) : SecureEnvelope where
  installationId := "home"
  generation := 1
  aad := ⟨1, "projection", "source", "session", seq, "frame", 0, 1, List.replicate 32 0, keyEpoch,
    "client_to_daemon", by decide⟩
  noncePrefix := List.replicate 12 0
  ciphertext := [7]

def homeSealed : List SecureEnvelope := [homeEnvelope 5 2, homeEnvelope 7 1]

def homeWindow : SecureEnvelopeReplayWindow := ⟨64, none, 0, by decide⟩

theorem listed_ideal :
    Ideal (listed homeSealed) homeCredential (homeSealed.map fun env => (env.ciphertext, env)) where
  honest := by
    intro frame hfr
    obtain ⟨env, he, rfl⟩ := mem_map.mp hfr
    have hh : ∃ seq keyEpoch, env = homeEnvelope seq keyEpoch := by
      rcases mem_pair.mp he with rfl | rfl <;> exact ⟨_, _, rfl⟩
    obtain ⟨seq, keyEpoch, rfl⟩ := hh
    exact ⟨some (List.replicate 12 0), rfl⟩
  decrypts := by
    intro authenticated nonce ciphertext payload
    constructor
    · intro h
      obtain ⟨⟨env, he, hf⟩, hp⟩ := (Option.ite_none_right_eq_some ..).mp h
      exact ⟨_, mem_map_of_mem he, hf.2.2.trans (Option.some.inj hp), hf⟩
    · rintro ⟨frame, hfr, rfl, hf⟩
      obtain ⟨env, he, rfl⟩ := mem_map.mp hfr
      exact (if_pos ⟨env, he, hf⟩).trans (congrArg some hf.2.2.symm)

/-- After number 5 of the second epoch, number 7 of the first is rejected, though it was sealed by
the holder, is near, and was not opened. -/
theorem genuine_frame_of_old_epoch_is_rejected :
    Ideal (listed homeSealed) homeCredential (homeSealed.map fun env => (env.ciphertext, env)) ∧
      SecureEnvelopeReplayWindow.new 64 = .ok homeWindow ∧ homeEnvelope 7 1 ∈ homeSealed ∧
      let stream := presents (listed homeSealed) homeCredential homeWindow
        [⟨homeEnvelope 5 2, 0, ⟨2, []⟩⟩]
      stream.seqs = [5] ∧ (stream.attempt (listed homeSealed) homeCredential
        ⟨homeEnvelope 7 1, 0, ⟨2, []⟩⟩).1 = .error .invalidKeyEpoch :=
  ⟨listed_ideal, rfl, mem_cons_of_mem _ mem_cons_self, by decide +kernel, rfl⟩

theorem frames_cannot_be_replayed_home :
    let stream := presents (listed homeSealed) homeCredential homeWindow
      [⟨homeEnvelope 5 2, 0, ⟨2, []⟩⟩]
    stream.seqs = [5] ∧ stream.seqs.Nodup ∧
      (stream.attempt (listed homeSealed) homeCredential ⟨homeEnvelope 7 1, 0, ⟨1, []⟩⟩).1 =
        .ok [7] ∧
      (stream.attempt (listed homeSealed) homeCredential ⟨homeEnvelope 7 1, 0, ⟨3, []⟩⟩).1 =
        .error .invalidKeyEpoch := by
  intro stream
  have hseqs : stream.seqs = [5] := by decide +kernel
  have hnew : SecureEnvelopeReplayWindow.new 64 = .ok homeWindow := rfl
  have hsealed : ([7], homeEnvelope 7 1) ∈ homeSealed.map fun env => (env.ciphertext, env) :=
    mem_cons_of_mem _ mem_cons_self
  obtain ⟨hnodup, -, hnext⟩ := frames_cannot_be_replayed listed_ideal hnew
    [⟨homeEnvelope 5 2, 0, ⟨2, []⟩⟩]
  refine ⟨hseqs, hnodup, ?_, ?_⟩
  · obtain ⟨-, htaken⟩ := (hnext ⟨homeEnvelope 7 1, 0, ⟨1, []⟩⟩).2 [7] hsealed
    exact htaken (by decide) rfl (by rw [hseqs]; decide) (by rw [hseqs]; decide)
  · exact ((hnext ⟨homeEnvelope 7 1, 0, ⟨3, []⟩⟩).2 [7] hsealed).1 nofun

end Stream

end Xolotl.Gateway
