import Mathlib

/-! Text as a list of characters, with the string operations of the Rust
standard library that the parsers use. Byte views are UTF-8. -/

abbrev Text := List Char

namespace Text

instance : Coe String Text := ⟨String.toList⟩

instance lawfulBEq : LawfulBEq Text := inferInstance

def bytes (t : Text) : List UInt8 := t.flatMap String.utf8EncodeChar

theorem forall_mem (P : Char → Prop) [DecidablePred P] {t : Text}
    (h : t.all (fun c => P c) = true) : ∀ c ∈ t, P c :=
  fun c hc => of_decide_eq_true (List.all_eq_true.mp h c hc)

def ofBytes (bs : List UInt8) : Option Text :=
  (bs.toByteArray.utf8Decode?).map Array.toList

def isAscii (t : Text) : Bool := t.all fun c => c.toNat < 128

def splitOnce : Text → Text → Option (Text × Text)
  | [], _ => none
  | c :: cs, sep =>
    if sep.isPrefixOf (c :: cs) then some ([], (c :: cs).drop sep.length)
    else (splitOnce cs sep).map fun (a, b) => (c :: a, b)

def stripPrefix (t pre : Text) : Option Text :=
  if pre.isPrefixOf t then some (t.drop pre.length) else none

def isWhite (c : Char) : Bool :=
  let n := c.toNat
  (9 ≤ n && n ≤ 13) || n == 0x20 || n == 0x85 || n == 0xA0 || n == 0x1680 ||
    (0x2000 ≤ n && n ≤ 0x200A) || n == 0x2028 || n == 0x2029 || n == 0x202F ||
    n == 0x205F || n == 0x3000

def trim (t : Text) : Text := ((t.dropWhile isWhite).reverse.dropWhile isWhite).reverse

def digit (c : Char) : Option Nat := if c.isDigit then some (c.toNat - '0'.toNat) else none

end Text

/-! ## Integers -/

inductive IntErrorKind
  | empty | invalidDigit | posOverflow | negOverflow
  deriving DecidableEq, Repr

namespace IntErrorKind

def text : IntErrorKind → Text
  | .empty => "cannot parse integer from empty string"
  | .invalidDigit => "invalid digit found in string"
  | .posOverflow => "number too large to fit in target type"
  | .negOverflow => "number too small to fit in target type"

end IntErrorKind

namespace Text

/-- The digit loop of `from_str_radix`, over exact integers with a range check
after each operation; `neg` subtracts digits instead of adding them. -/
def digitsI64 (neg : Bool) : Int → Text → Except IntErrorKind Int
  | acc, [] => .ok acc
  | acc, c :: cs =>
    match digit c with
    | none => .error .invalidDigit
    | some d =>
      let acc := if neg then acc * 10 - d else acc * 10 + d
      if acc < -2 ^ 63 then .error .negOverflow
      else if 2 ^ 63 - 1 < acc then .error .posOverflow
      else digitsI64 neg acc cs

def parseI64 : Text → Except IntErrorKind Int64
  | [] => .error .empty
  | ['+'] | ['-'] => .error .invalidDigit
  | '+' :: cs => (digitsI64 false 0 cs).map Int64.ofInt
  | '-' :: cs => (digitsI64 true 0 cs).map Int64.ofInt
  | cs => (digitsI64 false 0 cs).map Int64.ofInt

/-! ## Splitting -/

variable {t a : Text} {c : Char}

theorem splitOnce_eq_some {sep b : Text} (h : t.splitOnce sep = some (a, b)) :
    t = a ++ sep ++ b := by
  induction t generalizing a with
  | nil => simp [splitOnce] at h
  | cons c cs ih =>
    rw [splitOnce] at h
    split at h
    next hp =>
      obtain ⟨rest, hr⟩ := List.isPrefixOf_iff_prefix.mp hp
      simp only [← hr, List.drop_left, Option.some.injEq, Prod.mk.injEq] at h
      rw [← hr, ← h.1, ← h.2]
      rfl
    next =>
      obtain ⟨⟨a', b'⟩, hs, heq⟩ := Option.map_eq_some_iff.mp h
      obtain ⟨rfl, rfl⟩ := heq
      rw [ih hs]
      rfl

theorem splitOnce_append (h : c ∉ a) (sep b : Text) :
    Text.splitOnce (a ++ (c :: sep) ++ b) (c :: sep) = some (a, b) := by
  induction a with
  | nil =>
    have hp : (c :: sep).isPrefixOf (c :: (sep ++ b)) = true :=
      List.isPrefixOf_iff_prefix.mpr ⟨b, rfl⟩
    simp only [List.nil_append, List.cons_append, splitOnce, if_pos hp, List.length_cons,
      List.drop_succ_cons, List.drop_left]
  | cons d a ih =>
    have hd : c ≠ d := List.ne_of_not_mem_cons h
    have hp : ¬(c :: sep).isPrefixOf (d :: (a ++ (c :: sep) ++ b)) = true := by
      simp [hd]
    rw [List.cons_append, List.cons_append, splitOnce, if_neg hp,
      ih (List.not_mem_of_not_mem_cons h)]
    rfl

theorem splitOnce_eq_none (h : c ∉ t) (sep : Text) : t.splitOnce (c :: sep) = none := by
  induction t with
  | nil => rfl
  | cons d ds ih =>
    have hd : c ≠ d := List.ne_of_not_mem_cons h
    rw [splitOnce, if_neg (by simp [hd]), ih (List.not_mem_of_not_mem_cons h)]
    rfl

theorem stripPrefix_append (pre t : Text) : Text.stripPrefix (pre ++ t) pre = some t := by
  have hp : pre.isPrefixOf (pre ++ t) = true := List.isPrefixOf_iff_prefix.mpr ⟨t, rfl⟩
  rw [stripPrefix, if_pos hp, List.drop_left]

theorem stripPrefix_eq_some {pre r : Text} (h : t.stripPrefix pre = some r) : t = pre ++ r := by
  unfold stripPrefix at h
  split at h
  next hp =>
    obtain ⟨rest, hr⟩ := List.isPrefixOf_iff_prefix.mp hp
    rw [← hr, List.drop_left] at h
    rw [← hr, Option.some.inj h]
  next => cases h

/-! ## UTF-8 -/

@[simp] theorem bytes_append (a b : Text) : (a ++ b : Text).bytes = a.bytes ++ b.bytes :=
  List.flatMap_append

theorem ofBytes_bytes (t : Text) : ofBytes t.bytes = some t := by
  have h : t.bytes.toByteArray.utf8Decode? = some t.toArray := List.utf8Decode?_utf8Encode
  rw [ofBytes, h]
  rfl

theorem bytes_injective : Function.Injective bytes := by
  intro a b h
  have hs : some a = some b := by
    rw [← ofBytes_bytes, h, ofBytes_bytes]
  exact Option.some.inj hs

theorem utf8EncodeChar_of_ascii (h : c.toNat < 128) :
    String.utf8EncodeChar c = [UInt8.ofNat c.toNat] := by
  have hv : c.val.toNat ≤ 127 := Nat.le_of_lt_succ h
  rw [String.utf8EncodeChar.eq_1, if_pos hv]
  rfl

theorem mem_bytes_of_ascii (h : c.toNat < 128) (hc : c ∈ t) : UInt8.ofNat c.toNat ∈ t.bytes :=
  List.mem_flatMap.mpr ⟨c, hc, by rw [utf8EncodeChar_of_ascii h]; exact List.mem_singleton_self _⟩

theorem ascii_of_bytes (h : ∀ b ∈ t.bytes, b < 128) : t.isAscii = true := by
  refine List.all_eq_true.mpr fun c hc => decide_eq_true (Nat.lt_of_not_le fun hn => ?_)
  have hv : ¬c.val.toNat ≤ 127 := Nat.not_le.mpr hn
  have hm : ∀ b ∈ String.utf8EncodeChar c, b < 128 :=
    fun b hb => h b (List.mem_flatMap.mpr ⟨c, hc, hb⟩)
  rw [String.utf8EncodeChar.eq_1, if_neg hv] at hm
  split at hm
  · have hb := hm _ (List.mem_cons_self ..)
    change (c.val.toNat / 64 % 32 + 192) % 256 < 128 at hb
    omega
  split at hm
  · have hb := hm _ (List.mem_cons_self ..)
    change (c.val.toNat / 4096 % 16 + 224) % 256 < 128 at hb
    omega
  · have hb := hm _ (List.mem_cons_self ..)
    change (c.val.toNat / 262144 % 8 + 240) % 256 < 128 at hb
    omega

end Text
