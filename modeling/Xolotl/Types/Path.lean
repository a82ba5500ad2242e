import Xolotl.Lib.Glob
import Xolotl.Lib.Text

/-! Paths, their identifier rules, and the segment matcher shared by paths and
capabilities. -/

namespace Xolotl.Types

open List

/-! ## Identifiers -/

inductive IdentifierKind
  | scheme | cluster | segment
  deriving DecidableEq, Repr

inductive IdentifierError
  | empty | character
  deriving DecidableEq, Repr

structure Identifier where
  kind : IdentifierKind
  position : Nat := 0
  wildcards : Nat := 0
  invalid : Bool := false
  deriving DecidableEq, Repr

def isAsciiAlphabetic (b : UInt8) : Bool := (65 ≤ b && b ≤ 90) || (97 ≤ b && b ≤ 122)

def isAsciiDigit (b : UInt8) : Bool := 48 ≤ b && b ≤ 57

def isAsciiAlphanumeric (b : UInt8) : Bool := isAsciiAlphabetic b || isAsciiDigit b

namespace Identifier

variable (i : Identifier)

/-- Whether `byte` may come next, and the wildcard count after it. -/
def accepts (byte : UInt8) : Bool × Nat :=
  let first := i.position == 0
  -- '_' is 95, '-' is 45, '*' is 42, '.' is 46 and ':' is 58
  match i.kind with
  | .scheme => (if first then isAsciiAlphabetic byte
      else isAsciiAlphanumeric byte || byte == 95 || byte == 45, i.wildcards)
  | .cluster => (isAsciiAlphanumeric byte || byte == 95 || byte == 45, i.wildcards)
  | .segment =>
    if 0 < i.wildcards || (first && byte == 42) then
      let valid := byte == 42 && i.wildcards < 2
      (valid, i.wildcards + valid.toNat)
    else if first then (isAsciiAlphanumeric byte, i.wildcards)
    else (isAsciiAlphanumeric byte || byte == 95 || byte == 45 || byte == 46 || byte == 58,
      i.wildcards)

def pushBytes (i : Identifier) : List UInt8 → Except IdentifierError Unit × Identifier
  | [] => (.ok (), i)
  | byte :: bytes =>
    let (valid, wildcards) := i.accepts byte
    if valid then
      pushBytes { i with wildcards, position := min (i.position + 1) 8 } bytes
    else (.error .character, { i with wildcards, invalid := true })

def push (bytes : List UInt8) : Except IdentifierError Unit × Identifier :=
  if i.invalid then (.error .character, i) else i.pushBytes bytes

def finish : Except IdentifierError Unit :=
  if i.invalid then .error .character
  else if i.position = 0 then .error .empty
  else .ok ()

def validate (bytes : List UInt8) (kind : IdentifierKind) : Except IdentifierError Unit :=
  match ({ kind } : Identifier).push bytes with
  | (.ok (), i) => i.finish
  | (.error e, _) => .error e

end Identifier

def isIdent (kind : IdentifierKind) (s : Text) : Bool :=
  (Identifier.validate s.bytes kind).isOk

def isSchemeIdent (s : Text) : Bool := isIdent .scheme s

def isClusterIdent (s : Text) : Bool := isIdent .cluster s

def isSegmentIdent (s : Text) : Bool := isIdent .segment s

/-! ## Paths -/

inductive PathError
  | empty | missingScheme | missingSeparator | badScheme | emptySegment | paramsUnsupported
  | badSchemeChar (scheme : Text) | reservedScheme | badSegmentChar (segment : Text)
  | wildcardSegment (segment : Text) | badClusterChar (cluster : Text) | nonAscii
  deriving DecidableEq, Repr

def PathError.text : PathError → Text
  | .empty => "empty path"
  | .missingScheme => "missing scheme"
  | .missingSeparator => "path must include '://' after the scheme"
  | .badScheme => "scheme cannot contain '/'"
  | .emptySegment => "segment cannot be empty"
  | .paramsUnsupported =>
    "path parameters are not supported; put options in operation input values"
  | .badSchemeChar s => "invalid character in scheme '" ++ s ++
      "': only [a-zA-Z][a-zA-Z0-9_-]* allowed"
  | .reservedScheme => "scheme 'path' is reserved for clustered paths"
  | .badSegmentChar s => "invalid character in segment '" ++ s ++
      "': only [a-zA-Z0-9][a-zA-Z0-9_.:-]* allowed"
  | .wildcardSegment s => "wildcard segment '" ++ s ++
      "' is only valid in path patterns"
  | .badClusterChar s => "invalid character in cluster '" ++ s ++
      "': only [a-zA-Z0-9_-]+ allowed"
  | .nonAscii => "non-ASCII characters are not allowed in paths"

/-- A path carries the identifier rules its constructors check. -/
@[ext] structure Path where
  cluster : Option Text
  scheme : Text
  segments : List Text
  scheme_valid : isSchemeIdent scheme = true ∧ scheme ≠ "path"
  cluster_valid : ∀ c ∈ cluster, isClusterIdent c = true
  segments_valid : ∀ s ∈ segments, isSegmentIdent s = true
  deriving DecidableEq

def validateClusterIdent (s : Text) : Except PathError (PLift (isClusterIdent s = true)) :=
  if !s.isAscii then .error .nonAscii
  else if h : isClusterIdent s = true then .ok ⟨h⟩
  else .error (.badClusterChar s)

def validateSegment (s : Text) : Except PathError (PLift (isSegmentIdent s = true)) :=
  if s = [] then .error .emptySegment
  else if !s.isAscii then .error .nonAscii
  else if h : isSegmentIdent s = true then .ok ⟨h⟩
  else .error (.badSegmentChar s)

def isWildcardSegment (s : Text) : Bool := s == "*" || s == "**"

namespace Path

theorem valid_scheme {scheme : Text} (h : isSchemeIdent scheme = true) (h' : scheme ≠ "path") :
    isSchemeIdent scheme = true ∧ scheme ≠ "path" := ⟨h, h'⟩

theorem valid_state : isSchemeIdent "state" = true ∧ ("state" : Text) ≠ "path" := by decide

theorem valid_none : ∀ c ∈ (none : Option Text), isClusterIdent c = true := by simp

theorem valid_nil : ∀ s ∈ ([] : List Text), isSegmentIdent s = true := forall_mem_nil _

def tryNew (scheme : Text) : Except PathError Path :=
  if scheme = [] then .error .missingScheme
  else if !scheme.isAscii then .error .nonAscii
  else if '/' ∈ scheme then .error .badScheme
  else if h : isSchemeIdent scheme = true then
    if h' : scheme = "path" then .error .reservedScheme
    else .ok ⟨none, scheme, [], valid_scheme h h', valid_none, valid_nil⟩
  else .error (.badSchemeChar scheme)

def tryPush (p : Path) (segment : Text) : Except PathError Path :=
  match validateSegment segment with
  | .error e => .error e
  | .ok ⟨h⟩ => .ok { p with
      segments := p.segments ++ [segment]
      segments_valid := by
        intro s hs
        rcases mem_append.mp hs with hs | hs
        · exact p.segments_valid s hs
        · rw [mem_singleton.mp hs]
          exact h }

def tryWithCluster (p : Path) (c : Text) : Except PathError Path :=
  match validateClusterIdent c with
  | .error e => .error e
  | .ok ⟨h⟩ => .ok { p with
      cluster := some c
      cluster_valid := by
        intro d hd
        rw [Option.mem_some_iff.mp hd] at h
        exact h }

def isConcrete (p : Path) : Bool := p.segments.all fun s => !isWildcardSegment s

end Path

/-! ## Segment matching -/

def isGlobstar (s : Text) : Bool := s == "**"

theorem isGlobstar_iff {s : Text} : isGlobstar s = true ↔ s = "**" := beq_iff_eq

def matchSegmentTokens (pat seg : List Text) (singleSegmentCovers : Text → Text → Bool) : Bool :=
  Glob.scan isGlobstar singleSegmentCovers pat seg none

def segmentCovers (pattern target : Text) : Bool := pattern == "*" || pattern == target

/-- Conservative coverage between pattern segments: a `*` never consumes a `**`. -/
def segmentSubsumes (pattern target : Text) : Bool :=
  pattern == target || (pattern == "*" && target != "**")

def matchSegments (pat seg : List Text) : Bool := matchSegmentTokens pat seg segmentCovers

def patternSubsumesSegments (parent child : List Text) : Bool :=
  matchSegmentTokens parent child segmentSubsumes

variable {pat seg parent child : List Text}

theorem matchSegments_iff :
    matchSegments pat seg = true ↔ Glob.Matches isGlobstar segmentCovers pat seg :=
  Glob.scan_none_iff pat seg

theorem patternSubsumesSegments_iff : patternSubsumesSegments parent child = true ↔
      Glob.Matches isGlobstar segmentSubsumes parent child :=
  Glob.scan_none_iff parent child

theorem segmentSubsumes_sound {a b : Text} (ha : isGlobstar a = false)
    (hab : segmentSubsumes a b = true) :
    isGlobstar b = false ∧ ∀ x, segmentCovers b x = true → segmentCovers a x = true := by
  simp only [segmentSubsumes, Bool.or_eq_true, beq_iff_eq, Bool.and_eq_true, bne_iff_ne] at hab
  rcases hab with rfl | ⟨rfl, hb⟩
  · exact ⟨ha, fun _ h => h⟩
  · exact ⟨beq_eq_false_iff_ne.mpr hb, fun _ _ => rfl⟩

theorem patternSubsumesSegments_sound (hsu : patternSubsumesSegments parent child = true)
    (hs : matchSegments child seg = true) : matchSegments parent seg = true := by
  rw [matchSegments_iff] at hs ⊢
  exact (patternSubsumesSegments_iff.mp hsu).trans (fun _ _ => segmentSubsumes_sound) hs

/-- The recursive reading of a pattern, which tries every length for a globstar. -/
def original : List Text → List Text → Bool
  | [], seg => seg.isEmpty
  | head :: tail, seg =>
    if isGlobstar head then
      (List.range (seg.length + 1)).any fun consumed => original tail (seg.drop consumed)
    else
      match seg with
      | [] => false
      | first :: rest => segmentCovers head first && original tail rest

theorem original_iff : original pat seg = true ↔ Glob.Matches isGlobstar segmentCovers pat seg := by
  induction pat generalizing seg with
  | nil =>
    cases seg with
    | nil => simp [original, Glob.Matches.nil]
    | cons first rest => simp [original, Glob.not_matches_nil_cons]
  | cons head tail ih =>
    rw [original.eq_def]
    cases hg : isGlobstar head with
    | true =>
      rw [Glob.matches_globstar_iff hg]
      simp only [hg, if_true, any_eq_true, mem_range, Nat.lt_succ_iff, ih]
    | false =>
      cases seg with
      | nil => simp [Glob.matches_nil_iff, hg]
      | cons first rest => simp [Glob.matches_single_iff hg, hg, ih]

/-- The greedy scan, which keeps one retry position, decides what the recursive
reading of a pattern accepts. -/
theorem matchSegments_eq_original (pat seg : List Text) :
    matchSegments pat seg = original pat seg := by
  rw [Bool.eq_iff_iff, matchSegments_iff, original_iff]

theorem segmentSubsumes_trans {a b : Text} (ha : isGlobstar a = false)
    (hab : segmentSubsumes a b = true) :
    isGlobstar b = false ∧ ∀ x, segmentSubsumes b x = true → segmentSubsumes a x = true := by
  refine ⟨(segmentSubsumes_sound ha hab).1, ?_⟩
  intro x hbx
  simp only [segmentSubsumes] at *
  grind

theorem patternSubsumesSegments_trans {p q r : List Text}
    (hpq : patternSubsumesSegments p q = true) (hqr : patternSubsumesSegments q r = true) :
    patternSubsumesSegments p r = true := by
  rw [patternSubsumesSegments_iff] at *
  exact hpq.trans (fun _ _ => segmentSubsumes_trans) hqr

/-- Subsumption is a preorder on patterns that only narrows: a pattern at the end of a
chain of subsumptions is subsumed by its start, and matches nothing its start does not. -/
theorem patternSubsumesSegments_narrows :
    (∀ parent child seg, patternSubsumesSegments parent child = true →
      matchSegments child seg = true → matchSegments parent seg = true) ∧
    (∀ p, patternSubsumesSegments p p = true) ∧
    (∀ p q r, patternSubsumesSegments p q = true → patternSubsumesSegments q r = true →
      patternSubsumesSegments p r = true) ∧
    ∀ p q, Relation.ReflTransGen (fun a b => patternSubsumesSegments a b = true) p q →
      patternSubsumesSegments p q = true ∧
        ∀ seg, matchSegments q seg = true → matchSegments p seg = true := by
  have hrefl : ∀ p, patternSubsumesSegments p p = true := by
    intro p
    rw [patternSubsumesSegments_iff]
    exact .refl (fun a => by simp [segmentSubsumes]) p
  refine ⟨fun _ _ _ => patternSubsumesSegments_sound, hrefl,
    fun _ _ _ => patternSubsumesSegments_trans, ?_⟩
  intro p q h
  have hpq : patternSubsumesSegments p q = true := by
    induction h with
    | refl => exact hrefl p
    | tail _ hbc ih => exact patternSubsumesSegments_trans ih hbc
  exact ⟨hpq, fun _ => patternSubsumesSegments_sound hpq⟩

theorem patternSubsumesSegments_narrows_delegated :
    patternSubsumesSegments ["a", "**"] ["a", "b"] = true ∧
      matchSegments ["a", "**"] ["a", "b"] = true := by
  have hfirst : patternSubsumesSegments ["a", "**"] ["a", "*"] = true :=
    patternSubsumesSegments_iff.mpr (.single rfl rfl (.absorb rfl (.skip rfl .nil)))
  have hsecond : patternSubsumesSegments ["a", "*"] ["a", "b"] = true :=
    patternSubsumesSegments_iff.mpr (.single rfl rfl (.single rfl rfl .nil))
  have hmatch : matchSegments ["a", "b"] ["a", "b"] = true :=
    matchSegments_iff.mpr (.single rfl rfl (.single rfl rfl .nil))
  obtain ⟨hsound, -, htrans, -⟩ := patternSubsumesSegments_narrows
  have hsub := htrans _ _ _ hfirst hsecond
  exact ⟨hsub, hsound _ _ _ hsub hmatch⟩

theorem matchSegments_of_all_globstar (hne : pat ≠ [])
    (h : ∀ s ∈ pat, s = "**") (seg : List Text) : matchSegments pat seg = true := by
  obtain ⟨a, p, rfl⟩ := exists_cons_of_ne_nil hne
  have hnil : Glob.Matches isGlobstar segmentCovers (a :: p) [] := by
    rw [Glob.matches_nil_iff, all_eq_true]
    exact fun s hs => isGlobstar_iff.mpr (h s hs)
  rw [matchSegments_iff]
  simpa using hnil.absorb_append (isGlobstar_iff.mpr (h a (mem_cons_self ..))) seg

theorem patternSubsumesSegments_globstar_iff : patternSubsumesSegments parent ["**"] = true ↔
      parent ≠ [] ∧ ∀ s ∈ parent, s = "**" := by
  rw [patternSubsumesSegments_iff]
  constructor
  · intro h
    refine ⟨fun hp => Glob.not_matches_nil_cons (hp ▸ h), ?_⟩
    induction parent with
    | nil => simp
    | cons a p ih =>
      -- Only a globstar may meet the child's globstar, by skipping or absorbing it.
      cases h with
      | skip ha h => exact forall_mem_cons.mpr ⟨isGlobstar_iff.mp ha, ih h⟩
      | absorb ha h =>
        rw [Glob.matches_nil_iff, all_eq_true] at h
        exact fun s hs => isGlobstar_iff.mp (h s hs)
      | single ha hc _ => exact absurd (segmentSubsumes_sound ha hc).1 (by decide)
  · rintro ⟨hne, h⟩
    obtain ⟨a, p, rfl⟩ := exists_cons_of_ne_nil hne
    refine Glob.Matches.absorb (isGlobstar_iff.mpr (h a (mem_cons_self ..))) ?_
    rw [Glob.matches_nil_iff, all_eq_true]
    exact fun s hs => isGlobstar_iff.mpr (h s hs)

end Xolotl.Types
