import Xolotl.Types.Path
import Xolotl.Types.Value

/-! Capability literals: predicates, parsing, coverage of requests and of other
capabilities, and attenuation of capability sets. -/

namespace Xolotl.Types

inductive CapError
  | malformed (message : Text)
  deriving DecidableEq, Repr

/-! ## Predicates -/

inductive PredOp
  | eq | ne | le | lt | ge | gt
  deriving DecidableEq, Repr

structure Predicate where
  key : Text
  op : PredOp
  value : Text
  deriving DecidableEq, Repr

def predicateNumberText (value : Text) : Text := (value.stripPrefix "$").getD value

def parsePredicateInteger (value : Text) : Except CapError Int64 :=
  match (predicateNumberText value).parseI64 with
  | .ok n => .ok n
  | .error e => .error (.malformed ("invalid predicate integer: " ++ value ++
      ": " ++ e.text))

def parsePredicateNumber (value : Text) : Except CapError F64 :=
  match F64.parse (predicateNumberText value) with
  | .ok x =>
    if x.isFinite then .ok x
    else .error (.malformed ("predicate number must be finite: " ++ value))
  | .error e => .error (.malformed ("invalid predicate number: " ++ value ++
      ": " ++ e.text))

namespace Predicate

def isOperatorChar (c : Char) : Bool := c == '<' || c == '>' || c == '!' || c == '='

/-- The operator at the head of `tail` with its width; two characters win. -/
def operator : Text → Option (Nat × PredOp)
  | '<' :: '=' :: _ => some (2, .le)
  | '>' :: '=' :: _ => some (2, .ge)
  | '!' :: '=' :: _ => some (2, .ne)
  | '=' :: _ => some (1, .eq)
  | '<' :: _ => some (1, .lt)
  | '>' :: _ => some (1, .gt)
  | _ => none

def parse (raw : Text) : Except CapError Predicate := do
  let raw := raw.trim
  let tail := raw.dropWhile fun c => !isOperatorChar c
  if tail = [] then
    throw (.malformed ("predicate missing operator: " ++ raw))
  let some (width, op) := operator tail
    | throw (.malformed ("invalid predicate operator: " ++ raw))
  let key := Text.trim (raw.takeWhile fun c => !isOperatorChar c)
  let value := Text.trim (tail.drop width)
  if key = [] ∨ value = [] then
    throw (.malformed ("predicate missing key or value: " ++ raw))
  if key = "until" then
    if op ≠ .eq then
      throw (.malformed "until predicate must use '='")
    match value.parseI64 with
    | .ok _ => pure ()
    | .error e => throw (.malformed ("invalid until milliseconds: " ++ value ++
        ": " ++ e.text))
  else if op = .le ∨ op = .lt ∨ op = .ge ∨ op = .gt then
    discard (parsePredicateNumber value)
  return { key, op, value }

def cmpNum (lhs : F64) (op : PredOp) (rhs : F64) : Bool :=
  match op with
  | .eq => lhs.eq rhs
  | .ne => !lhs.eq rhs
  | .le => lhs.le rhs
  | .lt => lhs.lt rhs
  | .ge => rhs.le lhs
  | .gt => rhs.lt lhs

def cmpInt (lhs : Int64) (op : PredOp) (rhs : Int64) : Bool :=
  match op with
  | .eq => lhs == rhs
  | .ne => lhs != rhs
  | .le => decide (lhs ≤ rhs)
  | .lt => decide (lhs < rhs)
  | .ge => decide (rhs ≤ lhs)
  | .gt => decide (rhs < lhs)

def eval (p : Predicate) (input : Value) (nowMillis : Int64) : Bool :=
  if p.key = "until" then
    if p.op ≠ .eq then false
    else match p.value.parseI64 with
      | .ok bound => decide (nowMillis ≤ bound)
      | .error _ => false
  else match input.get p.key with
    | none => false
    | some field =>
      match p.op, field with
      | .eq, .str s => s == p.value
      | .ne, .str s => s != p.value
      -- Integer fields require integer literals; floats compare as floats.
      | op, .int n => match parsePredicateInteger p.value with
        | .ok rhs => cmpInt n op rhs
        | .error _ => false
      | op, .float x => x.isFinite && match parsePredicateNumber p.value with
        | .ok rhs => cmpNum x op rhs
        | .error _ => false
      | _, _ => false

end Predicate

/-! ## Capabilities -/

structure Capability where
  verb : Text
  cluster : Option Text
  scheme : Text
  segments : List Text
  method : Option Text
  predicate : Option Predicate
  deriving DecidableEq, Repr

def isCapabilityVerb (verb : Text) : Bool :=
  verb ∈ (["*", "perform", "publish", "read",
    "write", "append", "subscribe", "spawn",
    "spawn-with", "act-as", "delegate"] : List Text)

def expectedScheme (verb : Text) : Option Text :=
  if verb = "spawn" then some "process"
  else if verb = "act-as" then some "identity"
  else none

def isWildcardScheme (scheme : Text) : Bool := scheme == "*" || scheme == "**"

def validateCapabilityScheme (verb scheme : Text) : Except CapError Unit := do
  if !isWildcardScheme scheme then
    match Path.tryNew scheme with
    | .ok _ => pure ()
    | .error e => throw (.malformed ("invalid capability scheme " ++ scheme ++
        ": " ++ e.text))
  if verb = "*" ∨ isWildcardScheme scheme then
    return ()
  match expectedScheme verb with
  | some expected =>
    if scheme ≠ expected then
      throw (.malformed (verb ++ " capability must target " ++ expected ++
        "://, got " ++ scheme ++ "://"))
  | none => pure ()

def validateCapabilitySegment (segment : Text) : Except CapError Unit :=
  match Path.tryNew "state" >>= fun path => path.tryPush segment with
  | .ok _ => .ok ()
  | .error e => .error (.malformed ("invalid capability segment " ++ segment ++
      ": " ++ e.text))

def methodUnreserved (byte : UInt8) : Bool :=
  isAsciiAlphanumeric byte || byte == 45 || byte == 95 || byte == 46 || byte == 126

def canonicalHex (byte : UInt8) : Option UInt8 :=
  if isAsciiDigit byte then some (byte - 48)
  else if 65 ≤ byte && byte ≤ 70 then some (byte - 55)
  else none

/-- Percent-decoding of a method name; every escape must be necessary. -/
def decodeMethodBytes : List UInt8 → Except CapError (List UInt8)
  | [] => .ok []
  | 37 :: high :: low :: rest =>
    match canonicalHex high, canonicalHex low with
    | some h, some l =>
      let decoded := (h <<< 4) ||| l
      if methodUnreserved decoded then
        .error (.malformed "noncanonical capability method escape")
      else (decodeMethodBytes rest).map (decoded :: ·)
    | _, _ => .error (.malformed "invalid capability method escape")
  | byte :: rest =>
    if byte = 37 then .error (.malformed "invalid capability method escape")
    else if methodUnreserved byte then (decodeMethodBytes rest).map (byte :: ·)
    else .error (.malformed "unescaped capability method byte")

def decodeMethod (encoded : Text) : Except CapError Text := do
  if encoded = [] then
    throw (.malformed "empty capability method")
  let bytes ← decodeMethodBytes encoded.bytes
  match Text.ofBytes bytes with
  | some method => return method
  | none => throw (.malformed "capability method is not UTF-8")

namespace Capability

def tryNew (verb scheme : Text) (segments : List Text) (predicate : Option Predicate) :
    Except CapError Capability := do
  if verb = [] then
    throw (.malformed "empty verb")
  if !isCapabilityVerb verb then
    throw (.malformed ("unsupported capability verb: " ++ verb))
  validateCapabilityScheme verb scheme
  segments.forM validateCapabilitySegment
  return { verb, cluster := none, scheme, segments, method := none, predicate }

variable (c other : Capability) (verb : Text) (target : Path) (method : Text) (input : Value)
  (nowMillis : Int64)

def tryWithMethod : Except CapError Capability :=
  if method = [] then .error (.malformed "empty capability method")
  else .ok { c with method := some method }

def tryWithCluster (c : Capability) (cluster : Text) : Except CapError Capability :=
  if cluster = "*" then .ok { c with cluster := some cluster }
  else match Path.tryNew "state" >>= fun path => path.tryWithCluster cluster with
    | .ok _ => .ok { c with cluster := some cluster }
    | .error e => .error (.malformed ("invalid capability cluster " ++ cluster ++
        ": " ++ e.text))

/-- The scheme and path body of a literal; a bare wildcard selects every path. -/
def schemeAndBody (head : Text) : Text × Option Text :=
  if isWildcardScheme head then (head, some "**")
  else match head.splitOnce "/" with
    | some (s, b) => (s, some b)
    | none => (head, none)

def parse (s : Text) : Except CapError Capability := do
  let some (verb, rest) := s.splitOnce "://"
    | throw (.malformed ("missing scheme separator: " ++ s))
  let (head, predicate) ← match rest.splitOnce "@" with
    | some (head, raw) => do
      let predicate ← Predicate.parse raw
      -- The method may not follow the predicate.
      if '#' ∈ raw then
        throw (.malformed "capability method must precede the predicate")
      pure (head, some predicate)
    | none => pure (rest, none)
  let (head, method) ← match head.splitOnce "#" with
    | some (head, method) => do pure (head, some (← decodeMethod method))
    | none => pure (head, none)
  if verb = [] then
    throw (.malformed "empty verb")
  if !isCapabilityVerb verb then
    throw (.malformed ("unsupported capability verb: " ++ verb))
  let (cluster, head) ← match head.stripPrefix "path://" with
    | some clustered => match clustered.splitOnce "/" with
      | some (cluster, rest) => pure (some cluster, rest)
      | none => throw (.malformed ("clustered capability missing scheme: " ++ s))
    | none => pure (none, head)
  let (scheme, body) := schemeAndBody head
  let segments ← match body with
    | some [] => throw (.malformed "empty capability segment")
    | some body => pure (body.splitOn '/')
    | none => pure []
  let capability ← tryNew verb scheme segments predicate
  let capability ← match method with
    | some method => capability.tryWithMethod method
    | none => pure capability
  match cluster with
  | some cluster => capability.tryWithCluster cluster
  | none => return capability

def isGlobalRoot : Bool :=
  c.cluster == none && c.verb == "*" && c.scheme == "**" &&
    c.segments == [("**" : Text)]

def clusterSelects (cluster target : Option Text) : Bool :=
  match cluster, target with
  | none, none => true
  | some c, some t => c == "*" || c == t
  | _, _ => false

def clusterCoversPath : Bool :=
  c.isGlobalRoot || clusterSelects c.cluster target.cluster

def clusterCoversCap : Bool :=
  c.isGlobalRoot || clusterSelects c.cluster other.cluster

def coversPath : Bool :=
  c.clusterCoversPath target &&
    (c.verb == "*" || c.verb == verb) &&
    (isWildcardScheme c.scheme || c.scheme == target.scheme) &&
    matchSegments c.segments target.segments

def predicateHolds : Bool :=
  match c.predicate with
  | none => true
  | some pred => pred.eval input nowMillis

def coversWith : Bool :=
  c.method.isNone && c.coversPath verb target && c.predicateHolds input nowMillis

def matchesMethod : Bool :=
  c.coversPath verb target && (c.method.all fun selected => selected == method)

def coversMethod : Bool :=
  c.predicate.isNone && c.matchesMethod verb target method

def coversCapPathPattern : Bool :=
  c.clusterCoversCap other &&
    (c.verb == "*" || c.verb == other.verb) &&
    (isWildcardScheme c.scheme || c.scheme == other.scheme) &&
    patternSubsumesSegments c.segments other.segments

def coversCapPattern : Bool :=
  c.coversCapPathPattern other && (c.method.isNone || c.method == other.method)

def coversCap : Bool :=
  c.coversCapPattern other && (c.predicate.isNone || c.predicate == other.predicate)

end Capability

/-! ## Capability sets -/

structure CapSet where
  caps : List Capability
  deriving DecidableEq, Repr

namespace CapSet

def containsWith (s : CapSet) (verb : Text) (target : Path) (input : Value)
    (nowMillis : Int64) : Bool :=
  s.caps.any fun c => c.coversWith verb target input nowMillis

def containsMethod (s : CapSet) (verb : Text) (target : Path) (method : Text) : Bool :=
  s.caps.any fun c => c.coversMethod verb target method

def intersect (s requested : CapSet) : CapSet :=
  ⟨requested.caps.filter fun r => s.caps.any fun p => p.coversCap r⟩

end CapSet

end Xolotl.Types
