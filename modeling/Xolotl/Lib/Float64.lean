import Xolotl.Lib.Text

/-! IEEE 754 binary64 values by their bits: order, finiteness, and decimal
literals read with round-to-nearest-even. -/

structure F64 where
  bits : BitVec 64
  deriving DecidableEq, Repr

namespace F64

/-- Everything but the sign: exponent field above fraction field. -/
def magnitude (x : F64) : Nat := x.bits.toNat % 2 ^ 63

def infinity : Nat := 2047 * 2 ^ 52

def isFinite (x : F64) : Bool := x.magnitude < infinity

def isNan (x : F64) : Bool := infinity < x.magnitude

def negative (x : F64) : Bool := x.bits.msb

/-- Non-NaN values are ordered as these integers; both zeros have rank zero. -/
def rank (x : F64) : Int := if x.negative then -(x.magnitude : Int) else x.magnitude

def eq (x y : F64) : Bool := !x.isNan && !y.isNan && x.rank == y.rank

def lt (x y : F64) : Bool := !x.isNan && !y.isNan && decide (x.rank < y.rank)

def le (x y : F64) : Bool := !x.isNan && !y.isNan && decide (x.rank ≤ y.rank)

def ofMagnitude (neg : Bool) (magnitude : Nat) : F64 :=
  ⟨BitVec.ofNat 64 (if neg then 2 ^ 63 + magnitude else magnitude)⟩

/-- The magnitude nearest to `n / d`, ties to even. With `lg` the binary
logarithm of the quotient rounded down, the significand is taken in units of
`2 ^ e`, which is the exponent of the last place unless the result is subnormal. -/
def roundRatio (n d : Nat) : Nat :=
  if n = 0 then 0
  else
    let k : Int := (n.log2 : Int) - d.log2
    let atLeast := if 0 ≤ k then d * 2 ^ k.toNat ≤ n else d ≤ n * 2 ^ (-k).toNat
    let lg := if atLeast then k else k - 1
    let e := max (lg - 52) (-1074)
    let a := if 0 ≤ e then n else n * 2 ^ (-e).toNat
    let b := if 0 ≤ e then d * 2 ^ e.toNat else d
    let q := a / b
    let r := a % b
    let q := if b < 2 * r || (2 * r == b && q % 2 == 1) then q + 1 else q
    min infinity ((e + 1074).toNat * 2 ^ 52 + q)

inductive ParseError
  | empty | invalid
  deriving DecidableEq, Repr

def ParseError.text : ParseError → Text
  | .empty => "cannot parse float from empty string"
  | .invalid => "invalid float literal"

def spanDigits : Text → Text × Text
  | [] => ([], [])
  | c :: cs => if c.isDigit then let (ds, r) := spanDigits cs; (c :: ds, r) else ([], c :: cs)

def natOfDigits (ds : Text) : Nat := ds.foldl (fun n c => n * 10 + (c.toNat - '0'.toNat)) 0

def parseExponent : Text → Option Int
  | [] => some 0
  | c :: cs =>
    if c = 'e' ∨ c = 'E' then
      let (neg, cs) := match cs with
        | '+' :: cs => (false, cs)
        | '-' :: cs => (true, cs)
        | cs => (false, cs)
      match spanDigits cs with
      | ([], _) => none
      | (ds, []) => some (if neg then -(natOfDigits ds : Int) else natOfDigits ds)
      | _ => none
    else none

def parseNumber (neg : Bool) (t : Text) : Option F64 :=
  let (whole, rest) := spanDigits t
  let (fraction, rest) := match rest with
    | '.' :: rest => spanDigits rest
    | rest => ([], rest)
  if whole = [] ∧ fraction = [] then none
  else
    (parseExponent rest).map fun (e : Int) =>
      let m := natOfDigits (whole ++ fraction)
      let e : Int := e - fraction.length
      ofMagnitude neg (roundRatio (m * 10 ^ e.toNat) (10 ^ (-e).toNat))

def parse (t : Text) : Except ParseError F64 :=
  if t = [] then .error .empty
  else
    let (neg, t) := match t with
      | '+' :: t => (false, t)
      | '-' :: t => (true, t)
      | t => (false, t)
    let lower := t.map Char.toLower
    if lower = "inf" ∨ lower = "infinity" then .ok (ofMagnitude neg infinity)
    else if lower = "nan" then .ok (ofMagnitude neg (infinity + 2 ^ 51))
    else match parseNumber neg t with
      | some x => .ok x
      | none => .error .invalid

example : (parse "0.1").toOption = some ⟨0x3FB999999999999A⟩ := by decide +kernel

example : (parse "-2.5e-324").toOption = some ⟨0x8000000000000001⟩ := by decide +kernel

end F64
