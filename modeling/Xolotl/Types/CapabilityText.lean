import Xolotl.Lib.Fallible
import Xolotl.Types.Capability
import Xolotl.Types.PathText

/-! The text of a capability, and which capabilities their text parses back to. -/

namespace Xolotl.Types

open Fallible List Text

/-! ## Trimmed texts -/

def Trimmed (t : Text) : Prop :=
  (∀ c ∈ t.head?, Text.isWhite c = false) ∧ ∀ c ∈ t.getLast?, Text.isWhite c = false

variable {t : Text}

theorem dropWhile_of_head {p : Char → Bool} (h : ∀ c ∈ t.head?, p c = false) :
    t.dropWhile p = t := by
  cases t with
  | nil => rfl
  | cons c t => rw [dropWhile_cons, h c rfl]; rfl

theorem trim_of_trimmed (h : Trimmed t) : t.trim = t := by
  rw [Text.trim, dropWhile_of_head h.1, dropWhile_of_head, reverse_reverse]
  intro c hc
  rw [List.head?_reverse] at hc
  exact h.2 c hc

theorem head_dropWhile (p : Char → Bool) (t : Text) : ∀ c ∈ (t.dropWhile p).head?, p c = false := by
  intro c hc
  have h := List.head?_dropWhile_not p t
  rw [hc] at h
  simpa using h

theorem trimmed_trim (t : Text) : Trimmed t.trim := by
  constructor
  · intro c hc
    -- What is left after cutting the end starts as the text did.
    have hp : t.trim <+: t.dropWhile Text.isWhite := by
      have h := reverse_prefix.mpr
        (dropWhile_suffix Text.isWhite (l := (t.dropWhile Text.isWhite).reverse))
      rwa [reverse_reverse] at h
    obtain ⟨rest, hr⟩ := hp
    refine head_dropWhile Text.isWhite t c ?_
    rw [← hr, List.head?_append, hc]
    rfl
  · intro c hc
    rw [Text.trim, List.getLast?_reverse] at hc
    exact head_dropWhile _ _ c hc

theorem Trimmed.append {a b : Text} (ha : Trimmed a) (hb : Trimmed b) (han : a ≠ []) (hbn : b ≠ [])
    (m : Text) : Trimmed (a ++ m ++ b) := by
  constructor
  · rw [append_assoc, List.head?_append_of_ne_nil _ han]
    exact ha.1
  · rw [List.getLast?_append_of_ne_nil _ hbn]
    exact hb.2

theorem mem_of_mem_trim {c : Char} (h : c ∈ t.trim) : c ∈ t := by
  rw [Text.trim, mem_reverse] at h
  exact (dropWhile_sublist _).subset (mem_reverse.mp ((dropWhile_sublist _).subset h))

/-! ## Predicates -/

def PredOp.text : PredOp → Text
  | .eq => "="
  | .ne => "!="
  | .le => "<="
  | .lt => "<"
  | .ge => ">="
  | .gt => ">"

namespace Predicate

def text (p : Predicate) : Text := p.key ++ p.op.text ++ p.value

def checked (p : Predicate) (raw : Text) : Except CapError Predicate :=
  if p.key = [] ∨ p.value = [] then
    .error (.malformed ("predicate missing key or value: " ++ raw))
  else if p.key = "until" then
    if p.op ≠ .eq then .error (.malformed "until predicate must use '='")
    else match p.value.parseI64 with
      | .ok _ => .ok p
      | .error e => .error (.malformed ("invalid until milliseconds: " ++ p.value ++
          ": " ++ e.text))
  else if p.op = .le ∨ p.op = .lt ∨ p.op = .ge ∨ p.op = .gt then
    match parsePredicateNumber p.value with
    | .ok _ => .ok p
    | .error e => .error e
  else .ok p

variable {raw : Text} {p : Predicate}

theorem parse_eq :
    parse raw =
      if raw.trim.dropWhile (fun c => !isOperatorChar c) = [] then
        .error (.malformed ("predicate missing operator: " ++ raw.trim))
      else match operator (raw.trim.dropWhile fun c => !isOperatorChar c) with
        | some (width, op) =>
          checked ⟨Text.trim (raw.trim.takeWhile fun c => !isOperatorChar c), op,
            Text.trim ((raw.trim.dropWhile fun c => !isOperatorChar c).drop width)⟩ raw.trim
        | none => .error (.malformed ("invalid predicate operator: " ++ raw.trim)) := by
  simp only [parse, checked, bind, Except.bind, pure, Except.pure, throw, throwThe,
    MonadExceptOf.throw]
  split
  · rfl
  split
  next width op hop =>
    rw [hop]
    simp only
    split
    · rfl
    split
    · split
      · rfl
      · split <;> simp_all
    · split
      · cases parsePredicateNumber _ <;> rfl
      · rfl
  next hop =>
    cases hop' : operator (raw.trim.dropWhile fun c => !isOperatorChar c) with
    | none => rfl
    | some pair => exact absurd hop' (hop pair.1 pair.2)

theorem checked_ok {q : Predicate} (h : p.checked raw = .ok q) :
    q = p ∧ p.key ≠ [] ∧ p.value ≠ [] ∧ (p.op = .lt ∨ p.op = .gt → p.value.head? ≠ some '=') ∧
      ∀ raw', p.checked raw' = .ok p := by
  unfold checked at h
  split at h
  next => cases h
  next hne =>
    obtain ⟨hk, hv⟩ := not_or.mp hne
    split at h
    next hu =>
      split at h
      next => cases h
      next hop =>
        have hop : p.op = .eq := not_not.mp hop
        split at h
        next n hn =>
          refine ⟨(Except.ok.inj h).symm, hk, hv, ?_, ?_⟩
          · rintro (h | h) <;> rw [hop] at h <;> cases h
          · intro raw'
            rw [checked, if_neg hne, if_pos hu, if_neg (not_not.mpr hop), hn]
        next => cases h
    next hu =>
      split at h
      next hop =>
        split at h
        next n hn =>
          refine ⟨(Except.ok.inj h).symm, hk, hv, ?_, ?_⟩
          · intro _ hh
            obtain ⟨t, ht⟩ := List.head?_eq_some_iff.mp hh
            have hno : (parsePredicateNumber ('=' :: t)).isOk = false := rfl
            rw [← ht, hn] at hno
            cases hno
          · intro raw'
            rw [checked, if_neg hne, if_neg hu, if_pos hop, hn]
        next => cases h
      next hop =>
        refine ⟨(Except.ok.inj h).symm, hk, hv, ?_, ?_⟩
        · rintro (h | h)
          · exact absurd (.inr (.inl h)) hop
          · exact absurd (.inr (.inr (.inr h))) hop
        · intro raw'
          rw [checked, if_neg hne, if_neg hu, if_neg hop]

structure Canonical (p : Predicate) : Prop where
  key_trimmed : Trimmed p.key
  key_ne_nil : p.key ≠ []
  key_plain : ∀ c ∈ p.key, isOperatorChar c = false
  value_trimmed : Trimmed p.value
  value_ne_nil : p.value ≠ []
  number : p.op = .lt ∨ p.op = .gt → p.value.head? ≠ some '='
  checked : ∀ raw, p.checked raw = .ok p

theorem canonical_of_parse (h : parse raw = .ok p) : p.Canonical := by
  rw [parse_eq] at h
  split at h
  next => cases h
  split at h
  next =>
    obtain ⟨rfl, hk, hv, hn, hch⟩ := checked_ok h
    refine ⟨trimmed_trim _, hk, ?_, trimmed_trim _, hv, hn, hch⟩
    intro c hc
    have hp := all_eq_true.mp all_takeWhile c (mem_of_mem_trim hc)
    simpa using hp
  next => cases h

theorem operator_text (h : p.Canonical) :
    operator (p.op.text ++ p.value) = some (p.op.text.length, p.op) := by
  have hn := h.number
  obtain ⟨key, op, value⟩ := p
  cases op with
  | eq | ne | le | ge => rfl
  | lt =>
    cases value with
    | nil => rfl
    | cons c value =>
      have hc : c ≠ '=' := fun hc => hn (.inl rfl) (by rw [hc]; rfl)
      simp [PredOp.text, operator, hc]
  | gt =>
    cases value with
    | nil => rfl
    | cons c value =>
      have hc : c ≠ '=' := fun hc => hn (.inr rfl) (by rw [hc]; rfl)
      simp [PredOp.text, operator, hc]

theorem parse_text (h : p.Canonical) : parse p.text = .ok p := by
  have hop : ∃ c t, p.op.text = c :: t ∧ isOperatorChar c = true := by
    cases p.op <;> exact ⟨_, _, rfl, by decide⟩
  obtain ⟨c, t, hct, hc⟩ := hop
  have htr : p.text.trim = p.key ++ (p.op.text ++ p.value) := by
    have ht := h.key_trimmed.append h.value_trimmed h.key_ne_nil h.value_ne_nil p.op.text
    rw [text, trim_of_trimmed ht, append_assoc]
  have hp : ∀ d ∈ p.key, (!isOperatorChar d) = true := fun d hd => by rw [h.key_plain d hd]; rfl
  have hdr : p.text.trim.dropWhile (fun d => !isOperatorChar d) = p.op.text ++ p.value := by
    rw [htr, dropWhile_append_of_pos hp, hct, cons_append, dropWhile_cons, hc]
    rfl
  have hta : p.text.trim.takeWhile (fun d => !isOperatorChar d) = p.key := by
    rw [htr, takeWhile_append_of_pos hp, hct, cons_append, takeWhile_cons, hc]
    simp
  rw [parse_eq, hdr, hta, if_neg (by simp [hct]), operator_text h]
  simp only [drop_left, trim_of_trimmed h.key_trimmed, trim_of_trimmed h.value_trimmed]
  exact h.checked _

end Predicate

/-! ## Method names -/

def upperHex (n : UInt8) : Char := Char.ofNat (if n < 10 then 48 + n.toNat else 55 + n.toNat)

def encodeMethodByte (byte : UInt8) : Text :=
  if methodUnreserved byte then [Char.ofNat byte.toNat]
  else ['%', upperHex (byte >>> 4), upperHex (byte &&& 15)]

def encodeMethod (method : Text) : Text := method.bytes.flatMap encodeMethodByte

/-- The encoding of a byte avoids the delimiters, and decoding recognises it. -/
def Encoded (byte : UInt8) : Prop :=
  (∀ c ∈ encodeMethodByte byte, c.toNat < 128 ∧ c ≠ '@' ∧ c ≠ '#') ∧
    if methodUnreserved byte then Text.bytes (encodeMethodByte byte) = [byte] ∧ byte ≠ 37
    else
      let high := UInt8.ofNat (upperHex (byte >>> 4)).toNat
      let low := UInt8.ofNat (upperHex (byte &&& 15)).toNat
      Text.bytes (encodeMethodByte byte) = [37, high, low] ∧
        canonicalHex high = some (byte >>> 4) ∧ canonicalHex low = some (byte &&& 15) ∧
        ((byte >>> 4) <<< 4 ||| (byte &&& 15)) = byte

instance : DecidablePred Encoded := fun byte =>
  let _ : Decidable (∀ c ∈ encodeMethodByte byte, c.toNat < 128 ∧ c ≠ '@' ∧ c ≠ '#') :=
    List.decidableBAll _ _
  inferInstanceAs (Decidable (_ ∧ ite ..))

theorem encodeMethodByte_encoded : ∀ byte, Encoded byte := by
  apply Word.forall_byte
  decide +kernel

theorem decodeMethodBytes_encode (byte : UInt8) (rest : List UInt8) :
    decodeMethodBytes (Text.bytes (encodeMethodByte byte) ++ rest) =
      (decodeMethodBytes rest).map (byte :: ·) := by
  obtain ⟨-, h⟩ := encodeMethodByte_encoded byte
  split at h
  next hp =>
    obtain ⟨hbs, hne⟩ := h
    rw [hbs, singleton_append,
      decodeMethodBytes.eq_3 byte rest fun _ _ _ h => absurd h hne, if_neg hne, if_pos hp]
  next he =>
    obtain ⟨hbs, hh, hl, hj⟩ := h
    rw [hbs]
    simp only [cons_append, nil_append, decodeMethodBytes.eq_2, hh, hl, hj, if_neg he]

theorem decodeMethod_encodeMethod {method : Text} (hne : method ≠ []) :
    decodeMethod (encodeMethod method) = .ok method := by
  have hbs : ∀ bytes : List UInt8,
      decodeMethodBytes (Text.bytes (bytes.flatMap encodeMethodByte)) = .ok bytes := by
    intro bytes
    induction bytes with
    | nil => rfl
    | cons byte bytes ih =>
      rw [flatMap_cons, bytes_append, decodeMethodBytes_encode, ih]
      rfl
  have he : encodeMethod method ≠ [] := by
    intro h
    have hnil := hbs method.bytes
    change encodeMethod method = [] at h
    rw [show method.bytes.flatMap encodeMethodByte = [] from h] at hnil
    have hm := ofBytes_bytes method
    rw [← Except.ok.inj hnil] at hm
    exact hne (Option.some.inj hm).symm
  rw [decodeMethod, if_neg he]
  simp only [bind, Except.bind, encodeMethod, hbs, ofBytes_bytes]
  rfl

/-! ## Capabilities -/

namespace Capability

variable (c : Capability)

def pathText : Text :=
  (match c.cluster with
    | some cluster => "path://" ++ cluster ++ "/"
    | none => []) ++
  c.scheme ++ c.segments.flatMap ('/' :: ·)

def methodText : Text :=
  match c.method with
  | some method => "#" ++ encodeMethod method
  | none => []

def predicateText : Text :=
  match c.predicate with
  | some p => "@" ++ p.text
  | none => []

def text : Text :=
  c.verb ++ "://" ++ c.pathText ++ c.methodText ++ c.predicateText

/-- Capabilities that the constructors can produce, with parsed predicates. -/
inductive Built : Capability → Prop
  | parse {s : Text} {c : Capability} : parse s = .ok c → Built c
  | new {verb scheme : Text} {segments : List Text} {predicate : Option Predicate}
      {c : Capability} : (∀ p ∈ predicate, ∃ raw, Predicate.parse raw = .ok p) →
      tryNew verb scheme segments predicate = .ok c → Built c
  | method {c c' : Capability} {method : Text} :
    Built c → c.tryWithMethod method = .ok c' → Built c'
  | cluster {c c' : Capability} {cluster : Text} :
      Built c → c.tryWithCluster cluster = .ok c' → Built c'

structure WellFormed (c : Capability) : Prop where
  verb : isCapabilityVerb c.verb = true
  cluster : ∀ cluster ∈ c.cluster, cluster = "*" ∨ isClusterIdent cluster = true
  scheme : validateCapabilityScheme c.verb c.scheme = .ok ()
  segments : ∀ s ∈ c.segments, isSegmentIdent s = true
  method : ∀ method ∈ c.method, method ≠ []
  predicate : ∀ p ∈ c.predicate, p.Canonical

variable {s verb scheme cluster : Text} {segments : List Text} {predicate : Option Predicate}
  {c c' : Capability} {d : Char}

theorem validateCapabilitySegment_iff :
    validateCapabilitySegment s = .ok () ↔ isSegmentIdent s = true := by
  simp only [validateCapabilitySegment, Path.tryPush]
  cases hvalid : validateSegment s with
  | ok hs => exact iff_of_true rfl hs.down
  | error e =>
    refine iff_of_false (by rintro ⟨⟩) fun hs => ?_
    rw [Path.validateSegment_of_valid hs] at hvalid
    cases hvalid

theorem forM_ok_iff {f : Text → Except CapError Unit} {l : List Text} :
    l.forM f = .ok () ↔ ∀ s ∈ l, f s = .ok () := by
  induction l with
  | nil => simp [pure, Except.pure]
  | cons s l ih =>
    rw [forall_mem_cons, ← ih]
    change (f s >>= fun _ => l.forM f) = _ ↔ _
    cases h : f s with
    | error e | ok u => simp [bind, Except.bind]

theorem tryNew_iff : tryNew verb scheme segments predicate = .ok c ↔
      isCapabilityVerb verb = true ∧ validateCapabilityScheme verb scheme = .ok () ∧
      (∀ s ∈ segments, isSegmentIdent s = true) ∧
      c = ⟨verb, none, scheme, segments, none, predicate⟩ := by
  have hse : (∀ s ∈ segments, isSegmentIdent s = true) ↔
      segments.forM validateCapabilitySegment = .ok () := by
    rw [forM_ok_iff]
    exact forall₂_congr fun s _ => validateCapabilitySegment_iff.symm
  rw [hse]
  by_cases hnil : verb = []
  · subst hnil
    simp [tryNew, isCapabilityVerb, bind, Except.bind]
  cases hv : isCapabilityVerb verb with
  | false => simp [tryNew, hnil, hv, bind, Except.bind]
  | true =>
    cases hsc : validateCapabilityScheme verb scheme with
    | error e => simp [tryNew, hnil, hv, hsc, bind, Except.bind]
    | ok u =>
      cases hs : segments.forM validateCapabilitySegment with
      | error e => simp [tryNew, hnil, hv, hsc, hs, bind, Except.bind]
      | ok u => simp [tryNew, hnil, hv, hsc, hs, bind, Except.bind, pure, Except.pure, eq_comm]

theorem tryWithMethod_iff {method : Text} :
    c.tryWithMethod method = .ok c' ↔ method ≠ [] ∧ c' = { c with method := some method } := by
  by_cases h : method = []
  · simp [tryWithMethod, h]
  · simp [tryWithMethod, h, eq_comm]

theorem tryWithCluster_iff :
    c.tryWithCluster cluster = .ok c' ↔
      (cluster = "*" ∨ isClusterIdent cluster = true) ∧
        c' = { c with cluster := some cluster } := by
  rw [tryWithCluster]
  by_cases hs : cluster = "*"
  · rw [if_pos hs]
    exact ⟨fun h => ⟨.inl hs, (Except.ok.inj h).symm⟩, fun h => congrArg Except.ok h.2.symm⟩
  rw [if_neg hs]
  simp only [Path.tryWithCluster]
  cases hvalid : validateClusterIdent cluster with
  | ok hid =>
    exact ⟨fun h => ⟨.inr hid.down, (Except.ok.inj h).symm⟩, fun h => congrArg Except.ok h.2.symm⟩
  | error e =>
    refine iff_of_false (by rintro ⟨⟩) fun h => h.1.elim hs fun hid => ?_
    rw [Path.validateClusterIdent_of_valid hid] at hvalid
    cases hvalid

theorem WellFormed.of_tryNew (hp : ∀ p ∈ predicate, ∃ raw, Predicate.parse raw = .ok p)
    (h : tryNew verb scheme segments predicate = .ok c) : c.WellFormed := by
  obtain ⟨hv, hsc, hs, rfl⟩ := tryNew_iff.mp h
  refine ⟨hv, by simp, hsc, hs, by simp, ?_⟩
  intro p hm
  obtain ⟨raw, hr⟩ := hp p hm
  exact Predicate.canonical_of_parse hr

theorem WellFormed.of_tryWithMethod {method : Text} (hc : c.WellFormed)
    (h : c.tryWithMethod method = .ok c') : c'.WellFormed := by
  obtain ⟨hne, rfl⟩ := tryWithMethod_iff.mp h
  exact { hc with method := fun m hm => by rwa [← Option.some.inj hm] }

theorem WellFormed.of_tryWithCluster (hc : c.WellFormed)
    (h : c.tryWithCluster cluster = .ok c') : c'.WellFormed := by
  obtain ⟨hcl, rfl⟩ := tryWithCluster_iff.mp h
  exact { hc with cluster := fun k hk => by rwa [← Option.some.inj hk] }

def assemble (verb scheme : Text) (segments : List Text) (predicate : Option Predicate)
    (method cluster : Option Text) : Except CapError Capability := do
  let capability ← tryNew verb scheme segments predicate
  let capability ← match method with
    | some method => capability.tryWithMethod method
    | none => pure capability
  match cluster with
  | some cluster => capability.tryWithCluster cluster
  | none => return capability

theorem WellFormed.of_assemble {method cluster : Option Text}
    (hp : ∀ p ∈ predicate, ∃ raw, Predicate.parse raw = .ok p)
    (h : assemble verb scheme segments predicate method cluster = .ok c) : c.WellFormed := by
  obtain ⟨c₀, hn, h⟩ := bind_ok.mp h
  have h₀ : c₀.WellFormed := .of_tryNew hp hn
  have hlast : ∀ c₁ : Capability, c₁.WellFormed →
      (match cluster with
        | some cluster => c₁.tryWithCluster cluster
        | none => .ok c₁) = .ok c → c.WellFormed := by
    intro c₁ h₁ h
    cases cluster with
    | some cluster => exact h₁.of_tryWithCluster h
    | none => exact Except.ok.inj h ▸ h₁
  cases method with
  | some method =>
    obtain ⟨c₁, hm, h⟩ := bind_ok.mp h
    exact hlast c₁ (h₀.of_tryWithMethod hm) h
  | none => exact hlast c₀ h₀ h

theorem WellFormed.of_parse (h : parse s = .ok c) : c.WellFormed := by
  unfold parse at h
  split at h
  next verb rest _ =>
    -- Each join point of the parser ends well only through the constructors, called in turn.
    extract_lets afterPredicate at h
    have hpr : ∀ head predicate, (∀ p ∈ predicate, ∃ raw, Predicate.parse raw = .ok p) →
        afterPredicate (head, predicate) = .ok c → c.WellFormed := by
      intro head predicate hp h
      dsimp -zeta only [afterPredicate] at h
      extract_lets afterMethod at h
      have hm : ∀ head method, afterMethod (head, method) = .ok c → c.WellFormed := by
        intro head method h
        dsimp -zeta only [afterMethod] at h
        extract_lets afterCluster afterCheck afterVerb at h
        have hc : ∀ cluster head, afterCluster (cluster, head) = .ok c → c.WellFormed := by
          intro cluster head h
          dsimp -zeta only [afterCluster] at h
          extract_lets afterNew afterSegments at h
          have hs : ∀ segments, afterSegments segments = .ok c → c.WellFormed := by
            intro segments h
            have ha : afterSegments segments =
                assemble verb (schemeAndBody head).1 segments predicate method cluster := by
              cases method <;> cases cluster <;> rfl
            exact .of_assemble hp (ha ▸ h)
          split at h
          next => cases h
          next =>
            obtain ⟨segments, -, h⟩ := bind_ok.mp h
            exact hs segments h
          next =>
            obtain ⟨segments, -, h⟩ := bind_ok.mp h
            exact hs segments h
        split at h
        next => cases h
        next =>
          dsimp -zeta only [afterVerb] at h
          split at h
          next => cases h
          next =>
            dsimp -zeta only [afterCheck] at h
            split at h
            next =>
              split at h
              next => exact hc _ _ h
              next => cases h
            next => exact hc _ _ h
      split at h
      next =>
        obtain ⟨method, -, h⟩ := bind_ok.mp h
        exact hm _ _ h
      next => exact hm _ _ h
    split at h
    next head raw _ =>
      obtain ⟨predicate, hpa, h⟩ := bind_ok.mp h
      split at h
      next => cases h
      next =>
        exact hpr head (some predicate) (fun p hp => ⟨raw, Option.some.inj hp ▸ hpa⟩) h
    next => exact hpr rest none (fun p hp => nomatch hp) h
  next => cases h

theorem Built.wellFormed (h : c.Built) : c.WellFormed := by
  induction h with
  | parse h => exact .of_parse h
  | new hp h => exact .of_tryNew hp h
  | method _ h ih => exact ih.of_tryWithMethod h
  | cluster _ h ih => exact ih.of_tryWithCluster h

/-! ### Parsing the text -/

theorem scheme_wildcard_or_ident (h : validateCapabilityScheme verb scheme = .ok ()) :
    isWildcardScheme scheme = true ∨ isSchemeIdent scheme = true ∧ scheme ≠ "path" := by
  cases hw : isWildcardScheme scheme with
  | true => exact .inl rfl
  | false =>
    refine .inr ?_
    cases hp : Path.tryNew scheme with
    | error e =>
      simp [validateCapabilityScheme, hw, hp, bind, Except.bind] at h
    | ok p =>
      have hs : p.scheme = scheme := by
        unfold Path.tryNew at hp
        repeat' split at hp
        all_goals first
          | cases hp; done
          | exact (congrArg Path.scheme (Except.ok.inj hp)).symm
      exact hs ▸ p.scheme_valid

theorem delimiter_not_mem {kind : IdentifierKind} (hs : isIdent kind s = true)
    (hd : d ∈ ['/', '@', '#']) : d ∉ s := by
  have hp : d.toNat < 128 ∧ Identifier.allowed kind (UInt8.ofNat d.toNat) = false := by
    cases kind <;> exact forall_mem
      (fun d => d.toNat < 128 ∧ Identifier.allowed _ (UInt8.ofNat d.toNat) = false) (by decide) d hd
  exact isIdent_not_mem hs hp.1 hp.2

theorem not_mem_scheme (h : validateCapabilityScheme verb scheme = .ok ())
    (hd : d ∈ [':', '/', '@', '#']) : d ∉ scheme := by
  rcases scheme_wildcard_or_ident h with hw | ⟨hs, -⟩
  · simp only [isWildcardScheme, Bool.or_eq_true, beq_iff_eq] at hw
    rcases hw with rfl | rfl <;> exact forall_mem (· ∉ _) (by decide) d hd
  · rcases mem_cons.mp hd with rfl | hd
    · exact isIdent_not_mem hs (by decide) (by decide)
    · exact delimiter_not_mem hs hd

variable {p : Predicate}

def coreText (c : Capability) : Text := c.scheme ++ c.segments.flatMap ('/' :: ·)

theorem at_not_mem_methodText (c : Capability) : '@' ∉ c.methodText := by
  unfold methodText
  split
  · intro hm
    rcases mem_append.mp hm with hm | hm
    · revert hm
      decide
    · obtain ⟨byte, -, hm⟩ := mem_flatMap.mp hm
      exact ((encodeMethodByte_encoded byte).1 _ hm).2.1 rfl
  · exact not_mem_nil

theorem pathText_of_local (hc : c.cluster = none) : c.pathText = c.coreText := by
  simp only [pathText, hc, coreText, nil_append]

/-! The cuts that lead the parser to its constructors. -/

inductive CutPredicate (rest : Text) : Text → Option Predicate → Prop
  | absent : rest.splitOnce "@" = none → CutPredicate rest rest none
  | present {head raw : Text} {p : Predicate} : rest.splitOnce "@" = some (head, raw) →
      Predicate.parse raw = .ok p → '#' ∉ raw → CutPredicate rest head (some p)

inductive CutMethod (head : Text) : Text → Option Text → Prop
  | absent : head.splitOnce "#" = none → CutMethod head head none
  | present {path encoded method : Text} : head.splitOnce "#" = some (path, encoded) →
      decodeMethod encoded = .ok method → CutMethod head path (some method)

inductive CutCluster (path : Text) : Option Text → Text → Prop
  | absent : path.stripPrefix "path://" = none → CutCluster path none path
  | present {clustered cluster core : Text} : path.stripPrefix "path://" = some clustered →
      clustered.splitOnce "/" = some (cluster, core) → CutCluster path (some cluster) core

inductive CutSegments (core : Text) : Text → List Text → Prop
  | absent {scheme : Text} : schemeAndBody core = (scheme, none) → CutSegments core scheme []
  | present {scheme t : Text} {d : Char} : schemeAndBody core = (scheme, some (d :: t)) →
      CutSegments core scheme ((d :: t).splitOn '/')

theorem parse_of_cuts {rest head path core : Text} {method cluster : Option Text}
    (hs : s.splitOnce "://" = some (verb, rest)) (hv : isCapabilityVerb verb = true)
    (hp : CutPredicate rest head predicate) (hm : CutMethod head path method)
    (hc : CutCluster path cluster core) (hb : CutSegments core scheme segments) :
    parse s = assemble verb scheme segments predicate method cluster := by
  have hnil : ¬verb = [] := by
    rintro rfl
    revert hv
    decide
  cases hp <;> cases hm <;> cases hc <;> cases hb <;>
    simp only [parse, assemble, bind, Except.bind, pure, Except.pure, if_false, Bool.not_true,
      Bool.false_eq_true, *]

theorem cut_segments_wildcard (hw : isWildcardScheme c.scheme = true)
    (hs : c.segments = []) : CutSegments c.coreText c.scheme ["**"] := by
  have hb : schemeAndBody c.coreText = (c.scheme, some ['*', '*']) := by
    rw [coreText, hs, flatMap_nil, append_nil, schemeAndBody, if_pos hw]
    rfl
  exact .present hb

namespace WellFormed

variable (h : c.WellFormed)
include h

theorem not_mem_cluster
    (hc : c.cluster = some cluster) (hd : d ∈ [':', '/', '@', '#']) : d ∉ cluster := by
  rcases h.cluster cluster hc with rfl | hs
  · exact forall_mem (· ∉ _) (by decide) d hd
  · rcases mem_cons.mp hd with rfl | hd
    · exact isIdent_not_mem hs (by decide) (by decide)
    · exact delimiter_not_mem hs hd

theorem not_mem_segments (hd : d ∈ ['/', '@', '#']) : ∀ s ∈ c.segments, d ∉ s := by
  intro s hs
  exact delimiter_not_mem (h.segments s hs) hd

theorem not_mem_coreText (hd : d ∈ ['@', '#']) : d ∉ c.coreText := by
  have hd' : d ∈ ['/', '@', '#'] := mem_cons_of_mem _ hd
  intro hm
  rcases mem_append.mp hm with hm | hm
  · exact not_mem_scheme h.scheme (mem_cons_of_mem _ hd') hm
  · obtain ⟨s, hs, hm⟩ := mem_flatMap.mp hm
    rcases mem_cons.mp hm with rfl | hm
    · revert hd
      decide
    · exact h.not_mem_segments hd' s hs hm

theorem not_mem_pathText (hd : d ∈ ['@', '#']) : d ∉ c.pathText := by
  have hco := h.not_mem_coreText hd
  have hm : d ∉ "path://".toList ∧ d ∉ "/".toList :=
    forall_mem (fun d => d ∉ "path://".toList ∧ d ∉ "/".toList) (by decide) d hd
  rw [pathText, append_assoc]
  refine fun hme => (mem_append.mp hme).elim (fun hme => ?_) hco
  cases hc : c.cluster with
  | none => simp [hc] at hme
  | some cluster =>
    simp only [hc] at hme
    rcases mem_append.mp hme with hme | hme
    · rcases mem_append.mp hme with hme | hme
      · exact hm.1 hme
      · exact h.not_mem_cluster hc (mem_cons_of_mem _ (mem_cons_of_mem _ hd)) hme
    · exact hm.2 hme

theorem stripPrefix_pathText : c.pathText.stripPrefix "path://" =
      c.cluster.map fun cluster => cluster ++ ['/'] ++ c.coreText := by
  cases hc : c.cluster with
  | some cluster =>
    simp only [pathText, hc, append_assoc]
    exact stripPrefix_append _ _
  | none =>
    simp only [pathText, hc, nil_append]
    cases hs : Text.stripPrefix (c.scheme ++ c.segments.flatMap ('/' :: ·)) "path://" with
    | none => rfl
    | some r =>
      -- The colon of the marker would lie in the scheme or behind a slash of the marker.
      exfalso
      have hco : ':' ∉ c.scheme := not_mem_scheme h.scheme (by decide)
      have heq : c.scheme ++ c.segments.flatMap ('/' :: ·) = "path:".toList ++
          ("//".toList ++ r) := by
        rw [stripPrefix_eq_some hs]
        rfl
      rcases append_eq_append_iff.mp heq with ⟨e, he, hr⟩ | ⟨e, he, -⟩
      · cases hse : c.segments with
        | nil => simp [hse] at hr
        | cons s segments =>
          rw [hse] at hr
          cases e with
          | nil =>
            rw [append_nil] at he
            exact hco (he ▸ (by decide))
          | cons d e =>
            have hd : '/' = d := by simpa using congrArg List.head? hr
            have hm : '/' ∈ "path:".toList := by
              rw [he, ← hd]
              simp
            revert hm
            decide
      · exact hco (he ▸ mem_append_left e (by decide))

theorem colon_not_mem_verb : ':' ∉ c.verb := by
  have hv := h.verb
  simp only [isCapabilityVerb, decide_eq_true_eq] at hv
  revert hv
  generalize c.verb = verb
  revert verb
  decide

theorem split_verb :
    c.text.splitOnce "://" = some (c.verb, c.pathText ++ c.methodText ++ c.predicateText) := by
  have ht : c.text = c.verb ++ "://".toList ++ (c.pathText ++ c.methodText ++ c.predicateText) := by
    simp only [text, append_assoc]
  rw [ht]
  exact splitOnce_append h.colon_not_mem_verb "//".toList _

theorem at_not_mem_head : '@' ∉ c.pathText ++ c.methodText :=
  fun hm => (mem_append.mp hm).elim (h.not_mem_pathText (by decide)) c.at_not_mem_methodText

theorem split_predicate (hp : c.predicate = some p) :
    (c.pathText ++ c.methodText ++ c.predicateText : Text).splitOnce "@" =
      some (c.pathText ++ c.methodText, p.text) := by
  simp only [predicateText, hp, ← append_assoc]
  exact splitOnce_append h.at_not_mem_head [] p.text

theorem assemble_fields :
    assemble c.verb c.scheme c.segments c.predicate c.method c.cluster = .ok c := by
  have hn : tryNew c.verb c.scheme c.segments c.predicate = .ok _ :=
    tryNew_iff.mpr ⟨h.verb, h.scheme, h.segments, rfl⟩
  have hme : ∀ d method, c.method = some method →
      tryWithMethod d method = .ok { d with method := some method } :=
    fun d method hm => tryWithMethod_iff.mpr ⟨h.method method hm, rfl⟩
  have hcl : ∀ d cluster, c.cluster = some cluster →
      tryWithCluster d cluster = .ok { d with cluster := some cluster } :=
    fun d cluster hc => tryWithCluster_iff.mpr ⟨h.cluster cluster hc, rfl⟩
  obtain ⟨verb, cluster, scheme, segments, method, predicate⟩ := c
  cases method <;> cases cluster <;>
    simp only [assemble, hn, hme, hcl, bind, Except.bind, pure, Except.pure]

theorem cut_predicate (hh : ∀ p ∈ c.predicate, '#' ∉ p.text) :
    CutPredicate (c.pathText ++ c.methodText ++ c.predicateText) (c.pathText ++ c.methodText)
      c.predicate := by
  cases hp : c.predicate with
  | none =>
    simp only [predicateText, hp, append_nil]
    exact .absent (splitOnce_eq_none h.at_not_mem_head [])
  | some p =>
    exact .present (h.split_predicate hp) (Predicate.parse_text (h.predicate p hp)) (hh p hp)

theorem cut_method : CutMethod (c.pathText ++ c.methodText) c.pathText c.method := by
  have hh : '#' ∉ c.pathText := h.not_mem_pathText (by decide)
  cases hm : c.method with
  | none =>
    simp only [methodText, hm, append_nil]
    exact .absent (splitOnce_eq_none hh [])
  | some method =>
    refine .present ?_ (decodeMethod_encodeMethod (h.method method hm))
    simp only [methodText, hm, ← append_assoc]
    exact splitOnce_append hh [] _

theorem cut_cluster : CutCluster c.pathText c.cluster c.coreText := by
  have hs := h.stripPrefix_pathText
  cases hc : c.cluster with
  | none =>
    rw [hc, pathText_of_local hc] at hs
    rw [pathText_of_local hc]
    exact .absent hs
  | some cluster =>
    rw [hc] at hs
    exact .present hs (splitOnce_append (h.not_mem_cluster hc (by decide)) [] _)

theorem cut_segments (hw : isWildcardScheme c.scheme = true → c.segments ≠ []) :
    CutSegments c.coreText c.scheme c.segments := by
  have hsl : '/' ∉ c.scheme := not_mem_scheme h.scheme (by decide)
  by_cases hse : c.segments = []
  · have hp : ¬isWildcardScheme c.scheme = true := fun h => hw h hse
    have hn : c.scheme.splitOnce "/" = none := splitOnce_eq_none hsl []
    rw [coreText, hse, flatMap_nil, append_nil]
    refine .absent ?_
    rw [schemeAndBody, if_neg hp, hn]
  · have hso := Path.splitOnce_rest hsl c.segments
    rw [if_neg hse] at hso
    have hm : '/' ∈ c.coreText := by
      rw [coreText, splitOnce_eq_some hso]
      simp
    have hp : ¬isWildcardScheme c.coreText = true := by
      intro hw
      simp only [isWildcardScheme, Bool.or_eq_true, beq_iff_eq] at hw
      rcases hw with hw | hw <;> rw [hw] at hm <;> revert hm <;> decide
    have hb : schemeAndBody c.coreText = (c.scheme, some (['/'].intercalate c.segments)) := by
      rw [schemeAndBody, if_neg hp, coreText, hso]
    have hsp := Path.split_intercalate (h.not_mem_segments (by decide))
      fun s hs => isIdent_ne_nil (h.segments s hs)
    cases hj : ['/'].intercalate c.segments with
    | nil =>
      rw [hj] at hsp
      exact absurd hsp.symm hse
    | cons d t =>
      rw [hj] at hsp
      rw [← hsp]
      exact .present (hb.trans (by rw [hj]))

theorem parse_of_segments (hh : ∀ p ∈ c.predicate, '#' ∉ p.text)
    (hb : CutSegments c.coreText c.scheme segments) (hs : ∀ s ∈ segments, isSegmentIdent s = true) :
    parse c.text = .ok { c with segments } := by
  have h' : WellFormed { c with segments } := { h with segments := hs }
  rw [parse_of_cuts h.split_verb h.verb (h.cut_predicate hh) h.cut_method h.cut_cluster hb]
  exact h'.assemble_fields

theorem parse_fails (hp : c.predicate = some p) (hh : '#' ∈ p.text) :
    parse c.text = .error (.malformed "capability method must precede the predicate") := by
  have hpr := Predicate.parse_text (h.predicate p hp)
  simp only [parse, h.split_verb, h.split_predicate hp, hpr, hh, bind, Except.bind, if_true,
    throw, throwThe, MonadExceptOf.throw]

end WellFormed

/-- Capabilities whose text says which segments they have and where the method ends. -/
def Plain (c : Capability) : Prop :=
  (isWildcardScheme c.scheme = true → c.segments ≠ []) ∧
    ∀ p ∈ c.predicate, '#' ∉ p.key ∧ '#' ∉ p.value

theorem hash_not_mem_text_iff : '#' ∉ p.text ↔ '#' ∉ p.key ∧ '#' ∉ p.value := by
  have hop : '#' ∉ p.op.text := by cases p.op <;> decide
  simp only [Predicate.text, mem_append, not_or]
  exact ⟨fun h => ⟨h.1.1, h.2⟩, fun h => ⟨⟨h.1, hop⟩, h.2⟩⟩

def schemeRoots : Capability := ⟨"read", none, "*", [], none, none⟩

def localCatchAll : Capability := ⟨"read", none, "*", ["**"], none, none⟩

def hashedPredicate : Capability := ⟨"read", none, "state", [], none, some ⟨"k", .eq, "v#w"⟩⟩

/-- Re-reading the text of a capability can widen it, from scheme roots to every
local path, and can fail. -/
theorem reread_capability_is_widened :
    (schemeRoots.Built ∧ parse schemeRoots.text = .ok localCatchAll ∧ localCatchAll ≠ schemeRoots ∧
      (∀ target, schemeRoots.coversPath "read" target = true → target.segments = []) ∧
      ∀ target : Path, target.cluster = none → localCatchAll.coversPath "read" target = true) ∧
    hashedPredicate.Built ∧ ∀ c, parse hashedPredicate.text ≠ .ok c := by
  have hroots : tryNew "read" "*" [] none = .ok schemeRoots := rfl
  have hhashed : tryNew "read" "state" [] (some ⟨"k", .eq, "v#w"⟩) = .ok hashedPredicate := rfl
  refine ⟨⟨.new (by simp) hroots, rfl, by decide, ?_, ?_⟩, .new ?_ hhashed, ?_⟩
  · intro target h
    simp only [coversPath, Bool.and_eq_true] at h
    have hmatch : matchSegments [] target.segments = true := h.2
    rw [matchSegments_iff] at hmatch
    cases hsegs : target.segments with
    | nil => rfl
    | cons s segments =>
      rw [hsegs] at hmatch
      exact absurd hmatch Glob.not_matches_nil_cons
  · intro target h
    have hmatch : matchSegments ["**"] target.segments = true :=
      matchSegments_of_all_globstar (by simp) (by simp) _
    have hcluster : localCatchAll.clusterCoversPath target = true := by
      rw [clusterCoversPath, h]
      rfl
    rw [coversPath, hcluster]
    exact hmatch
  · intro p hp
    exact ⟨"k=v#w", Option.some.inj hp ▸ rfl⟩
  · intro c h
    have hfail : (parse hashedPredicate.text).isOk = false := by decide
    rw [h] at hfail
    cases hfail

/-- The text of a capability that the constructors build is read back as the
capability exactly when it is plain. -/
theorem capability_text_round_trip {c : Capability} (h : c.Built) :
    parse c.text = .ok c ↔ c.Plain := by
  have hwf := h.wellFormed
  constructor
  · intro hparse
    have hhash : ∀ p ∈ c.predicate, '#' ∉ p.text := by
      intro p hp hmem
      rw [hwf.parse_fails hp hmem] at hparse
      cases hparse
    refine ⟨fun hw hsegs => ?_, fun p hp => hash_not_mem_text_iff.mp (hhash p hp)⟩
    rw [hwf.parse_of_segments hhash (cut_segments_wildcard hw hsegs) (by decide)] at hparse
    have heq := congrArg Capability.segments (Except.ok.inj hparse)
    rw [hsegs] at heq
    cases heq
  · rintro ⟨hw, hhash⟩
    exact hwf.parse_of_segments (fun p hp => hash_not_mem_text_iff.mpr (hhash p hp))
      (hwf.cut_segments hw) hwf.segments

def fullGrant : Capability :=
  ⟨"perform", some "west", "tool", ["a", "*"], some "do it",
    some ⟨"cost", .le, "0.10"⟩⟩

theorem capability_text_round_trip_full :
    fullGrant.Built ∧ parse fullGrant.text = .ok fullGrant := by
  have hparse : parse "perform://path://west/tool/a/*#do%20it@ cost <= 0.10" = .ok fullGrant := by
    decide +kernel
  have hplain : fullGrant.Plain := ⟨by decide, by decide +kernel⟩
  exact ⟨.parse hparse, (capability_text_round_trip (.parse hparse)).mpr hplain⟩

end Capability

end Xolotl.Types
