import Xolotl.Types.Path
import Xolotl.Lib.Word

/-! The canonical text of a path: the parser, the parts it is written in, and that
each is the inverse of the other. -/

namespace Xolotl.Types

open List Text Word

/-! ## Characters of identifiers -/

namespace Identifier

def allowed (kind : IdentifierKind) (byte : UInt8) : Bool :=
  isAsciiAlphanumeric byte || byte == 95 || byte == 45 ||
    (kind == .segment && (byte == 46 || byte == 58 || byte == 42))

variable {i : Identifier} {bytes : List UInt8}

theorem allowed_of_accepts {byte : UInt8} (h : (i.accepts byte).1 = true) :
    allowed i.kind byte = true := by
  obtain ⟨kind, position, wildcards, invalid⟩ := i
  cases kind with
  | scheme =>
    simp only [accepts] at h
    split at h
    · simp [allowed, isAsciiAlphanumeric, h]
    · simp only [allowed, h, Bool.true_or]
  | cluster => exact Bool.or_eq_true_iff.mpr (.inl h)
  | segment =>
    simp only [accepts] at h
    split at h
    · simp only [Bool.and_eq_true] at h
      simp [allowed, h.1]
    · split at h
      · change isAsciiAlphanumeric byte = true at h
        simp [allowed, h]
      · simp only [Bool.or_eq_true] at h
        rcases h with (((h | h) | h) | h) | h <;> simp [allowed, h]

theorem allowed_of_pushBytes
    (h : (i.pushBytes bytes).1 = .ok ()) : ∀ b ∈ bytes, allowed i.kind b = true := by
  induction bytes generalizing i with
  | nil => simp
  | cons byte bytes ih =>
    simp only [pushBytes] at h
    split at h
    next hv =>
      have ht := ih h
      exact forall_mem_cons.mpr ⟨allowed_of_accepts hv, ht⟩
    next => cases h

theorem validate_ok {kind : IdentifierKind}
    (h : (validate bytes kind).isOk = true) : bytes ≠ [] ∧ ∀ b ∈ bytes, allowed kind b = true := by
  rw [validate] at h
  split at h
  next i hp =>
    change Identifier.pushBytes { kind } bytes = _ at hp
    constructor
    · rintro rfl
      rw [← show ({ kind } : Identifier) = i from congrArg Prod.snd hp] at h
      cases h
    · exact allowed_of_pushBytes (congrArg Prod.fst hp)
  next => cases h

end Identifier

variable {kind : IdentifierKind} {s : Text}

theorem ascii_of_allowed {byte : UInt8} (h : Identifier.allowed kind byte = true) : byte < 128 := by
  simp only [Identifier.allowed, isAsciiAlphanumeric, isAsciiAlphabetic, isAsciiDigit,
    Bool.or_eq_true, Bool.and_eq_true, decide_eq_true_eq, beq_iff_eq, UInt8.le_iff_toNat_le,
    ← UInt8.toNat_inj] at h
  rw [UInt8.lt_iff_toNat_lt]
  simp only [UInt8.toNat_ofNat] at h ⊢
  omega

theorem isIdent_ascii (h : isIdent kind s = true) : s.isAscii = true :=
  ascii_of_bytes fun b hb => ascii_of_allowed ((Identifier.validate_ok h).2 b hb)

theorem isIdent_ne_nil (h : isIdent kind s = true) : s ≠ [] := by
  intro hs
  have hbs : s.bytes ≠ [] := (Identifier.validate_ok h).1
  exact hbs (congrArg Text.bytes hs)

theorem isIdent_not_mem (h : isIdent kind s = true) {c : Char}
    (hc : c.toNat < 128) (hn : Identifier.allowed kind (UInt8.ofNat c.toNat) = false) : c ∉ s := by
  intro hm
  have := (Identifier.validate_ok h).2 _ (mem_bytes_of_ascii hc hm)
  rw [hn] at this
  cases this

namespace Path

/-! ## Parsing -/

def validateSegments : (segments : List Text) →
    Except PathError (PLift (∀ s ∈ segments, isSegmentIdent s = true))
  | [] => .ok ⟨valid_nil⟩
  | segment :: segments =>
    match validateSegment segment with
    | .error e => .error e
    | .ok ⟨h⟩ =>
      match validateSegments segments with
      | .error e => .error e
      | .ok ⟨hs⟩ => .ok ⟨forall_mem_cons.mpr ⟨h, hs⟩⟩

def divide (s : Text) :
    Except PathError (Option { c : Text // isClusterIdent c = true } × Text × Text) :=
  match s.stripPrefix "path://" with
  | some clustered =>
    match clustered.splitOnce "/" with
    | none => .error .missingScheme
    | some (cluster, rest) =>
      match validateClusterIdent cluster with
      | .error e => .error e
      | .ok ⟨h⟩ =>
        let (scheme, body) := (rest.splitOnce "/").getD (rest, [])
        if rest.getLast? = some '/' then .error .emptySegment
        else .ok (some ⟨cluster, h⟩, scheme, body)
  | none =>
    match s.splitOnce "://" with
    | none => .error .missingSeparator
    | some (scheme, body) => .ok (none, scheme, body)

def parse (s : Text) : Except PathError Path :=
  if s = [] then .error .empty
  else if !s.isAscii then .error .nonAscii
  else if '@' ∈ s then .error .paramsUnsupported
  else
    match divide s with
    | .error e => .error e
    | .ok (cluster, scheme, body) =>
      if scheme = [] then .error .missingScheme
      else if '/' ∈ scheme then .error .badScheme
      else if h : isSchemeIdent scheme = true then
        if h' : scheme = "path" then .error .reservedScheme
        else
          match validateSegments (if body = [] then [] else body.splitOn '/') with
          | .error e => .error e
          | .ok ⟨hs⟩ => .ok {
              cluster := cluster.map Subtype.val
              scheme
              segments := if body = [] then [] else body.splitOn '/'
              scheme_valid := valid_scheme h h'
              cluster_valid := by
                intro c hc
                obtain ⟨d, -, rfl⟩ := Option.map_eq_some_iff.mp hc
                exact d.2
              segments_valid := hs }
      else .error (.badSchemeChar scheme)

end Path

/-! ## Canonical text -/

theorem intercalate_cons (segment : Text) (segments : List Text) :
    ['/'].intercalate (segment :: segments) = segment ++ segments.flatMap ('/' :: ·) := by
  induction segments generalizing segment with
  | nil => simp [List.intercalate]
  | cons next segments ih =>
    have h := ih next
    simp [h]

structure CanonicalParts where
  path : Path
  position : Nat
  segments : List Text
  separator : Bool
  pending : Option Text

namespace CanonicalParts

variable (parts : CanonicalParts)

def head : Option Text :=
  match parts.path.cluster, parts.position with
  | some _, 0 => some "path://"
  | some cluster, 1 => some cluster
  | some _, 2 => some "/"
  | some _, 3 | none, 0 => some parts.path.scheme
  | none, 1 => some "://"
  | _, _ => none

def next : Option (Text × CanonicalParts) :=
  match parts.head with
  | some part => some (part, { parts with position := parts.position + 1 })
  | none =>
    match parts.pending with
    | some segment => some (segment, { parts with pending := none })
    | none =>
      match parts.segments with
      | [] => none
      | segment :: segments =>
        if parts.separator then some ("/", { parts with segments, pending := some segment })
        else some (segment, { parts with segments, separator := true })

def remaining : Nat :=
  (4 - parts.position) + 2 * parts.segments.length + parts.pending.toList.length

variable {parts : CanonicalParts} {part : Text} {path : Path} {position : Nat}
  {segments : List Text} {parts' : CanonicalParts}

theorem remaining_next
    (h : parts.next = some (part, parts')) : parts'.remaining < parts.remaining := by
  obtain ⟨path, position, segments, separator, pending⟩ := parts
  unfold next at h
  split at h
  next hh =>
    have hpos : position < 4 := by
      simp only [head] at hh
      split at hh <;> first | omega | cases hh
    cases h
    simp only [remaining]
    omega
  next =>
    split at h
    next hp =>
      cases h
      simp_all [remaining]
    next hp =>
      split at h
      next => cases h
      next hs =>
        change pending = none at hp
        change segments = _ at hs
        subst hp hs
        split at h <;> cases h <;> simp only [remaining, length_cons, Option.toList_some,
          length_nil] <;> omega

def collect (parts : CanonicalParts) : List Text :=
  match _h : parts.next with
  | none => []
  | some (part, parts') => part :: parts'.collect
termination_by parts.remaining
decreasing_by exact remaining_next _h

theorem collect_of_next
    (h : parts.next = some (part, parts')) : parts.collect = part :: parts'.collect := by
  rw [collect]
  split
  next hn => rw [hn] at h; cases h
  next heq => rw [heq] at h; cases h; rfl

theorem collect_of_next_none (h : parts.next = none) : parts.collect = [] := by
  rw [collect]
  split
  next => rfl
  next heq => rw [heq] at h; cases h

theorem collect_of_head (h : parts.head = some part) :
    parts.collect = part :: collect { parts with position := parts.position + 1 } :=
  collect_of_next (by rw [next, h])

theorem collect_of_separator {segment : Text}
    (h : head ⟨path, position, segment :: segments, true, none⟩ = none) :
    collect ⟨path, position, segment :: segments, true, none⟩ =
      ("/" : Text) :: segment :: collect ⟨path, position, segments, true, none⟩ := by
  have hf : next ⟨path, position, segment :: segments, true, none⟩ =
      some (("/" : Text), ⟨path, position, segments, true, some segment⟩) := by
    rw [next, h]
    rfl
  have hs : next ⟨path, position, segments, true, some segment⟩ =
      some (segment, ⟨path, position, segments, true, none⟩) := by
    have h' : head ⟨path, position, segments, true, some segment⟩ = none := h
    rw [next, h']
  rw [collect_of_next hf, collect_of_next hs]

theorem flatten_collect_separated (h : head ⟨path, position, segments, true, none⟩ = none) :
    (collect ⟨path, position, segments, true, none⟩).flatten = segments.flatMap ('/' :: ·) := by
  induction segments with
  | nil => rw [collect_of_next_none (by rw [next, h])]; rfl
  | cons segment segments ih =>
    rw [collect_of_separator h, flatten_cons, flatten_cons, ih h]
    rfl

theorem flatten_collect_bare (h : head ⟨path, position, segments, false, none⟩ = none) :
    (collect ⟨path, position, segments, false, none⟩).flatten = ['/'].intercalate segments := by
  cases segments with
  | nil => rw [collect_of_next_none (by rw [next, h])]; rfl
  | cons segment segments =>
    have hn : next ⟨path, position, segment :: segments, false, none⟩ =
        some (segment, ⟨path, position, segments, true, none⟩) := by
      rw [next, h]
      rfl
    have h' : head ⟨path, position, segments, true, none⟩ = none := h
    rw [collect_of_next hn, flatten_cons, flatten_collect_separated h', intercalate_cons]

end CanonicalParts

namespace Path

def canonicalParts (p : Path) : CanonicalParts :=
  { path := p
    position := 0
    segments := p.segments
    separator := p.cluster.isSome
    pending := none }

def text (p : Path) : Text := p.canonicalParts.collect.flatten

def canonicalLen (p : Path) : Option Nat :=
  p.canonicalParts.collect.foldlM (fun bytes part =>
    if bytes + part.bytes.length ≤ u64Max then some (bytes + part.bytes.length) else none) 0

variable {p : Path} {s : Text}

theorem text_local (h : p.cluster = none) :
    p.text = p.scheme ++ "://".toList ++ ['/'].intercalate p.segments := by
  obtain ⟨cluster, scheme, segments, hs, hc, hv⟩ := p
  subst h
  rw [text, canonicalParts, CanonicalParts.collect_of_head rfl, CanonicalParts.collect_of_head rfl]
  simp only [flatten_cons, Option.isSome_none]
  rw [CanonicalParts.flatten_collect_bare rfl, append_assoc]

variable {scheme cluster body : Text} {segments : List Text}

theorem text_clustered (h : p.cluster = some cluster) :
    p.text = "path://".toList ++ (cluster ++ ['/'] ++
      (p.scheme ++ p.segments.flatMap ('/' :: ·))) := by
  obtain ⟨cluster', scheme, segments, hs, hc, hv⟩ := p
  subst h
  rw [text, canonicalParts, CanonicalParts.collect_of_head rfl, CanonicalParts.collect_of_head rfl,
    CanonicalParts.collect_of_head rfl, CanonicalParts.collect_of_head rfl]
  simp only [flatten_cons, Option.isSome_some]
  rw [CanonicalParts.flatten_collect_separated rfl, append_assoc]
  rfl

/-! ## The text of a path parses to the path -/

theorem validateClusterIdent_of_valid {c : Text} (h : isClusterIdent c = true) :
    validateClusterIdent c = .ok ⟨h⟩ := by
  rw [validateClusterIdent, if_neg (by simp [isIdent_ascii h]), dif_pos h]

theorem validateSegment_of_valid (h : isSegmentIdent s = true) : validateSegment s = .ok ⟨h⟩ := by
  rw [validateSegment, if_neg (isIdent_ne_nil h), if_neg (by simp [isIdent_ascii h]), dif_pos h]

theorem validateSegments_of_valid
    (h : ∀ s ∈ segments, isSegmentIdent s = true) : validateSegments segments = .ok ⟨h⟩ := by
  induction segments with
  | nil => rfl
  | cons segment segments ih =>
    rw [validateSegments, validateSegment_of_valid (h segment (mem_cons_self ..)),
      ih fun s hs => h s (mem_cons_of_mem _ hs)]

variable (p)

theorem slash_not_mem_scheme : '/' ∉ p.scheme :=
  isIdent_not_mem p.scheme_valid.1 (by decide) (by decide)

theorem slash_not_mem_segments : ∀ s ∈ p.segments, '/' ∉ s :=
  fun s hs => isIdent_not_mem (p.segments_valid s hs) (by decide) (by decide)

theorem segments_ne_nil : ∀ s ∈ p.segments, s ≠ [] :=
  fun s hs => isIdent_ne_nil (p.segments_valid s hs)

theorem split_intercalate (hs : ∀ s ∈ segments, '/' ∉ s) (hne : ∀ s ∈ segments, s ≠ []) :
    (if ['/'].intercalate segments = [] then []
      else (['/'].intercalate segments).splitOn '/') = segments := by
  cases segments with
  | nil => rfl
  | cons segment segments =>
    have hb : ['/'].intercalate (segment :: segments) ≠ [] := by
      rw [intercalate_cons]
      exact append_ne_nil_of_left_ne_nil (hne segment (mem_cons_self ..)) _
    rw [if_neg hb, splitOn_intercalate '/' hs (cons_ne_nil _ _)]

theorem forall_mem_text {P : Char → Prop} (hf : ∀ c ∈ "path://".toList, P c)
    (hid : ∀ kind (s : Text), isIdent kind s = true → ∀ c ∈ s, P c) : ∀ c ∈ p.text, P c := by
  have hsl : P '/' := hf '/' (by decide)
  have hsc : ∀ c ∈ p.scheme, P c := hid _ _ p.scheme_valid.1
  have hse : ∀ s ∈ p.segments, ∀ c ∈ s, P c := fun s hs => hid _ s (p.segments_valid s hs)
  have hsp : ∀ segments : List Text, (∀ s ∈ segments, ∀ c ∈ s, P c) →
      ∀ c ∈ segments.flatMap ('/' :: ·), P c := by
    intro segments hs c hc
    obtain ⟨s, hm, hc⟩ := mem_flatMap.mp hc
    rcases mem_cons.mp hc with rfl | hc
    · exact hsl
    · exact hs s hm c hc
  intro c hc
  cases hcl : p.cluster with
  | none =>
    rw [text_local hcl] at hc
    rcases mem_append.mp hc with hc | hc
    · rcases mem_append.mp hc with hc | hc
      · exact hsc c hc
      · exact hf c (mem_append_right "path".toList hc)
    · cases hss : p.segments with
      | nil => simp [hss] at hc
      | cons s segments =>
        rw [hss, intercalate_cons] at hc
        rw [hss] at hse
        rcases mem_append.mp hc with hc | hc
        · exact hse s (mem_cons_self ..) c hc
        · exact hsp segments (fun t ht => hse t (mem_cons_of_mem _ ht)) c hc
  | some cluster =>
    rw [text_clustered hcl] at hc
    simp only [mem_append, mem_singleton] at hc
    rcases hc with hc | (hc | rfl) | hc | hc
    · exact hf c hc
    · exact hid _ cluster (p.cluster_valid cluster hcl) c hc
    · exact hsl
    · exact hsc c hc
    · exact hsp p.segments hse c hc

theorem isAscii_text : p.text.isAscii = true := by
  refine all_eq_true.mpr (p.forall_mem_text (all_eq_true.mp (by decide)) ?_)
  exact fun kind s h => all_eq_true.mp (isIdent_ascii h)

theorem at_not_mem_text : '@' ∉ p.text := by
  intro hm
  refine p.forall_mem_text (forall_mem (· ≠ '@') (by decide)) ?_ _ hm rfl
  rintro kind s h c hc rfl
  exact isIdent_not_mem h (by decide) (by cases kind <;> decide) hc

variable {p} in
theorem divide_text_local (h : p.cluster = none) :
    divide p.text = .ok (none, p.scheme, ['/'].intercalate p.segments) := by
  have hc : ':' ∉ p.scheme := isIdent_not_mem p.scheme_valid.1 (by decide) (by decide)
  have hsp : p.text.splitOnce "://" = some (p.scheme, ['/'].intercalate p.segments) := by
    rw [text_local h]
    exact splitOnce_append hc _ _
  -- A clustered reading would make the scheme the reserved one.
  have hst : p.text.stripPrefix "path://" = none := by
    cases hs : p.text.stripPrefix "path://" with
    | none => rfl
    | some r =>
      have hp : p.text.splitOnce "://" = some (("path" : Text), r) := by
        rw [stripPrefix_eq_some hs]
        exact splitOnce_append (show ':' ∉ "path".toList by decide) _ r
      rw [hsp] at hp
      exact absurd (congrArg Prod.fst (Option.some.inj hp)) p.scheme_valid.2
  rw [divide, hst, hsp]

theorem getLast_rest :
    (p.scheme ++ p.segments.flatMap ('/' :: ·)).getLast? ≠ some '/' := by
  rcases eq_nil_or_concat p.segments with hs | ⟨init, last, hs⟩
  · rw [hs, flatMap_nil, append_nil]
    exact fun h => p.slash_not_mem_scheme (mem_of_getLast? h)
  · have hlast : last ∈ p.segments := by simp [hs]
    have heq : p.scheme ++ p.segments.flatMap ('/' :: ·) =
        p.scheme ++ (init.flatMap ('/' :: ·) ++ ['/']) ++ last := by simp [hs]
    rw [heq, List.getLast?_append_of_ne_nil _ (p.segments_ne_nil last hlast)]
    exact fun h => p.slash_not_mem_segments last hlast (mem_of_getLast? h)

theorem splitOnce_rest (h : '/' ∉ scheme) (segments : List Text) :
    Text.splitOnce (scheme ++ segments.flatMap ('/' :: ·)) "/" =
      if segments = [] then none else some (scheme, ['/'].intercalate segments) := by
  cases segments with
  | nil =>
    rw [flatMap_nil, append_nil]
    exact splitOnce_eq_none h []
  | cons s segments =>
    rw [intercalate_cons]
    simpa using splitOnce_append h [] (s ++ segments.flatMap ('/' :: ·))

variable {p} in
theorem divide_text_clustered (h : p.cluster = some cluster) : divide p.text =
      .ok (some ⟨cluster, p.cluster_valid _ h⟩, p.scheme, ['/'].intercalate p.segments) := by
  have hvalid := p.cluster_valid _ h
  have hsl : '/' ∉ cluster := isIdent_not_mem hvalid (by decide) (by decide)
  have hsp := splitOnce_append hsl [] (p.scheme ++ p.segments.flatMap ('/' :: ·))
  have hs : p.text.stripPrefix "path://" =
      some (cluster ++ ['/'] ++ (p.scheme ++ p.segments.flatMap ('/' :: ·))) := by
    rw [text_clustered h]
    exact stripPrefix_append _ _
  have hr := splitOnce_rest p.slash_not_mem_scheme p.segments
  rw [divide, hs]
  simp only [show ("/".toList : Text) = ['/'] from rfl] at hr ⊢
  simp only [hsp, validateClusterIdent_of_valid hvalid, hr, if_neg p.getLast_rest]
  split
  next hse =>
    rw [hse, flatMap_nil, append_nil]
    rfl
  next => rfl

theorem divide_text :
    ∃ cluster, divide p.text = .ok (cluster, p.scheme, ['/'].intercalate p.segments) ∧
      cluster.map Subtype.val = p.cluster := by
  cases h : p.cluster with
  | none => exact ⟨_, divide_text_local h, rfl⟩
  | some cluster => exact ⟨_, divide_text_clustered h, rfl⟩

theorem text_ne_nil : p.text ≠ [] := by
  cases h : p.cluster with
  | none =>
    rw [text_local h, append_assoc]
    exact append_ne_nil_of_left_ne_nil (isIdent_ne_nil p.scheme_valid.1) _
  | some cluster => rw [text_clustered h]; simp

theorem parse_text : parse p.text = .ok p := by
  obtain ⟨cluster, hd, hc⟩ := p.divide_text
  have hs := split_intercalate p.slash_not_mem_segments p.segments_ne_nil
  have hvalid : ∀ s ∈ (if ['/'].intercalate p.segments = [] then []
      else (['/'].intercalate p.segments).splitOn '/'), isSegmentIdent s = true := by
    rw [hs]
    exact p.segments_valid
  rw [parse, if_neg p.text_ne_nil, if_neg (by simp [p.isAscii_text]), if_neg p.at_not_mem_text, hd]
  simp only
  rw [if_neg (isIdent_ne_nil p.scheme_valid.1), if_neg p.slash_not_mem_scheme,
    dif_pos p.scheme_valid.1, dif_neg p.scheme_valid.2, validateSegments_of_valid hvalid]
  simp only [hs, hc]

variable {p}

/-! ## The path of an accepted string has that string as its text -/

theorem intercalate_split (body : Text) :
    ['/'].intercalate (if body = [] then [] else body.splitOn '/') = body := by
  split
  next h => rw [h]; rfl
  next => exact intercalate_splitOn '/'

theorem divide_ok {cluster : Option { c : Text // isClusterIdent c = true }}
    (h : divide s = .ok (cluster, scheme, body)) :
    (cluster = none ∧ s = scheme ++ "://".toList ++ body) ∨
    ∃ c rest, cluster = some c ∧ s = "path://".toList ++ (c.1 ++ ['/'] ++ rest) ∧
      rest.getLast? ≠ some '/' ∧ (rest.splitOnce "/").getD (rest, []) = (scheme, body) := by
  unfold divide at h
  split at h
  next clustered hst =>
    split at h
    next => cases h
    next c rest hs =>
      split at h
      next => cases h
      next hvalid _ =>
        simp only at h
        split at h
        next => cases h
        next hlast =>
          cases h
          refine .inr ⟨⟨c, hvalid⟩, rest, rfl, ?_, hlast, rfl⟩
          rw [stripPrefix_eq_some hst, splitOnce_eq_some hs]
          rfl
  next =>
    split at h
    next => cases h
    next hs =>
      cases h
      exact .inl ⟨rfl, splitOnce_eq_some hs⟩

theorem parse_ok (h : parse s = .ok p) :
    ∃ cluster body, divide s = .ok (cluster, p.scheme, body) ∧
      p.cluster = cluster.map Subtype.val ∧
      p.segments = if body = [] then [] else body.splitOn '/' := by
  unfold parse at h
  repeat
    split at h
    next => cases h
  rename_i cluster scheme body hd _ _
  split at h
  next =>
    repeat
      split at h
      next => cases h
    cases h
    exact ⟨cluster, body, hd, rfl, rfl⟩
  next => cases h

theorem rest_of_split {rest : Text} (hlast : rest.getLast? ≠ some '/')
    (h : (rest.splitOnce "/").getD (rest, []) = (scheme, body)) :
    rest = scheme ++ (if body = [] then [] else body.splitOn '/').flatMap ('/' :: ·) := by
  cases hs : rest.splitOnce "/" with
  | none =>
    rw [hs] at h
    obtain ⟨rfl, rfl⟩ := Prod.mk.inj h
    rw [if_pos rfl, flatMap_nil, append_nil]
  | some pair =>
    rw [hs] at h
    obtain rfl : pair = (scheme, body) := h
    have hr : rest = scheme ++ ['/'] ++ body := splitOnce_eq_some hs
    have hb : body ≠ [] := by
      rintro rfl
      rw [hr, append_nil, List.getLast?_concat] at hlast
      exact hlast rfl
    obtain ⟨segment, segments, hse⟩ := exists_cons_of_ne_nil (splitOn_ne_nil '/' body)
    have hj : ['/'].intercalate (body.splitOn '/') = body := intercalate_splitOn '/'
    rw [hse, intercalate_cons] at hj
    rw [if_neg hb, hse, flatMap_cons, cons_append, hj, hr]
    simp

theorem text_of_parse (h : parse s = .ok p) : p.text = s := by
  obtain ⟨cluster, body, hd, hc, hs⟩ := parse_ok h
  rcases divide_ok hd with ⟨rfl, rfl⟩ | ⟨c, rest, rfl, rfl, hlast, hr⟩
  · rw [text_local hc, hs, intercalate_split]
  · rw [text_clustered hc, hs, ← rest_of_split hlast hr]

/-! ## Its length -/

theorem foldlM_length (parts : List Text) {n : Nat} (hn : n ≤ u64Max) :
    parts.foldlM (fun bytes part =>
        if bytes + part.bytes.length ≤ u64Max then some (bytes + part.bytes.length) else none) n =
      if n + (Text.bytes parts.flatten).length ≤ u64Max then
        some (n + (Text.bytes parts.flatten).length)
      else none := by
  induction parts generalizing n with
  | nil => simp [Text.bytes, hn]
  | cons part parts ih =>
    rw [foldlM_cons, flatten_cons, bytes_append, length_append, ← Nat.add_assoc]
    by_cases hp : n + part.bytes.length ≤ u64Max
    · rw [if_pos hp]
      exact ih hp
    · rw [if_neg hp, if_neg (by omega)]
      rfl

theorem canonicalLen_eq (p : Path) :
    p.canonicalLen = if p.text.bytes.length ≤ u64Max then some p.text.bytes.length else none := by
  have h := foldlM_length p.canonicalParts.collect (Nat.zero_le u64Max)
  rw [Nat.zero_add] at h
  exact h

end Path

/-- Paths and the strings that name them correspond one to one, and the length
computed from the parts is the length of the text. -/
theorem path_text_is_canonical :
    (∀ p : Path, Path.parse p.text = .ok p ∧
      p.canonicalLen =
        if p.text.bytes.length ≤ u64Max then some p.text.bytes.length else none) ∧
    (∀ (s : Text) (p : Path), Path.parse s = .ok p → p.text = s) ∧
    ∀ (s s' : Text) (p p' : Path), Path.parse s = .ok p → Path.parse s' = .ok p' → s ≠ s' →
      p ≠ p' := by
  refine ⟨fun p => ⟨p.parse_text, p.canonicalLen_eq⟩, fun s p => Path.text_of_parse, ?_⟩
  rintro s s' p p' h h' hne rfl
  exact hne ((Path.text_of_parse h).symm.trans (Path.text_of_parse h'))

theorem path_text_is_canonical_clustered :
    ∃ p : Path, Path.parse "path://west/state/a.b/*" = .ok p ∧
      p.text = "path://west/state/a.b/*" := by
  cases h : Path.parse "path://west/state/a.b/*" with
  | ok p => exact ⟨p, rfl, path_text_is_canonical.2.1 _ p h⟩
  | error e =>
    have hok : (Path.parse "path://west/state/a.b/*").isOk = true := by decide
    rw [h] at hok
    cases hok

end Xolotl.Types
