import Xolotl.Lib.Text

/-! Validation of UTF-8 byte by byte, as `core::str::from_utf8` does it: what it accepts, and
where it says that a text breaks off inside a character. -/

namespace FromUtf8

open List

/-- The bytes a character still lacks, each with its least and greatest value. -/
abbrev Lacks := List (Nat × Nat)

def second (first : Nat) : Nat × Nat :=
  if first = 0xE0 then (0xA0, 0xBF) else if first = 0xED then (0x80, 0x9F)
  else if first = 0xF0 then (0x90, 0xBF) else if first = 0xF4 then (0x80, 0x8F) else (0x80, 0xBF)

def lacks (first : Nat) : Option Lacks :=
  if first < 0x80 then some []
  else if first < 0xC2 then none
  else if first < 0xE0 then some [second first]
  else if first < 0xF0 then some [second first, (0x80, 0xBF)]
  else if first < 0xF5 then some [second first, (0x80, 0xBF), (0x80, 0xBF)]
  else none

abbrev Within (r : Nat × Nat) (byte : UInt8) : Prop := r.1 ≤ byte.toNat ∧ byte.toNat ≤ r.2

def step : Lacks → UInt8 → Option Lacks
  | [], byte => lacks byte.toNat
  | r :: rest, byte => if Within r byte then some rest else none

def run (s : Lacks) (bytes : List UInt8) : Option Lacks := bytes.foldlM step s

structure Error where
  validUpTo : Nat
  errorLen : Option Nat

/-- The loop, `len` bytes into the character that begins at `start`. -/
def scan (start len : Nat) (s : Lacks) : List UInt8 → Except Error Unit
  | [] => if s = [] then .ok () else .error ⟨start, none⟩
  | byte :: bytes =>
    match step s byte with
    | none => .error ⟨start, some (max len 1)⟩
    | some [] => scan (start + len + 1) 0 [] bytes
    | some s => scan start (len + 1) s bytes

def fromUtf8 (bytes : List UInt8) : Except Error Unit := scan 0 0 [] bytes

/-! ## What is accepted -/

variable {s s' : Lacks} {byte : UInt8} {bytes : List UInt8} {n : Nat}

theorem run_append (s : Lacks) (xs ys : List UInt8) :
    run s (xs ++ ys) = (run s xs).bind fun s => run s ys := foldlM_append ..

theorem run_cons : run s (byte :: bytes) = (step s byte).bind fun s => run s bytes := foldlM_cons ..

theorem run_nil : run s [] = some s := rfl

theorem ofNat_eq (h : n = byte.toNat) : UInt8.ofNat n = byte := by
  rw [h, UInt8.ofNat_toNat]

theorem exists_encode (h : lacks byte.toNat = some s) (hm : Forall₂ Within s bytes) :
    ∃ c, String.utf8EncodeChar c = byte :: bytes := by
  have hch : ∀ v, v < 0xD800 ∨ 0xDFFF < v ∧ v < 0x110000 → ∃ c : Char, c.val.toNat = v :=
    fun v hv => ⟨Char.ofNatAux v hv, rfl⟩
  unfold lacks at h
  split at h
  next =>
    cases h
    cases hm
    obtain ⟨c, hc⟩ := hch byte.toNat (by omega)
    exact ⟨c, by rw [String.utf8EncodeChar.eq_1, hc, if_pos (by omega), ofNat_eq rfl]⟩
  split at h
  next => cases h
  split at h
  next =>
    cases h
    simp only [forall₂_cons_left_iff, forall₂_nil_left_iff, Within, second] at hm
    obtain ⟨b, _, hb, rfl, rfl⟩ := hm
    rw [if_neg (by omega), if_neg (by omega), if_neg (by omega), if_neg (by omega)] at hb
    obtain ⟨c, hc⟩ := hch ((byte.toNat - 192) * 64 + (b.toNat - 128)) (by omega)
    exact ⟨c, by rw [String.utf8EncodeChar.eq_1, hc, if_neg (by omega), if_pos (by omega),
      @ofNat_eq byte _ (by omega), @ofNat_eq b _ (by omega)]⟩
  split at h
  next =>
    cases h
    simp only [forall₂_cons_left_iff, forall₂_nil_left_iff, Within, second] at hm
    obtain ⟨b, _, hb, ⟨b', _, hb', rfl, rfl⟩, rfl⟩ := hm
    obtain ⟨v, hv⟩ : ∃ v, v = (byte.toNat - 224) * 4096 + (b.toNat - 128) * 64 + (b'.toNat - 128) :=
      ⟨_, rfl⟩
    have hr : (128 ≤ b.toNat ∧ b.toNat ≤ 191) ∧ 2047 < v ∧ (v < 0xD800 ∨ 0xDFFF < v) := by
      split_ifs at hb <;> omega
    obtain ⟨c, hc⟩ := hch v (by omega)
    exact ⟨c, by rw [String.utf8EncodeChar.eq_1, hc, if_neg (by omega), if_neg (by omega),
      if_pos (by omega), @ofNat_eq byte _ (by omega), @ofNat_eq b _ (by omega),
      @ofNat_eq b' _ (by omega)]⟩
  split at h
  next =>
    cases h
    simp only [forall₂_cons_left_iff, forall₂_nil_left_iff, Within, second] at hm
    obtain ⟨b, _, hb, ⟨b', _, hb', ⟨b'', _, hb'', rfl, rfl⟩, rfl⟩, rfl⟩ := hm
    obtain ⟨v, hv⟩ : ∃ v, v = (byte.toNat - 240) * 262144 + (b.toNat - 128) * 4096 +
      (b'.toNat - 128) * 64 + (b''.toNat - 128) := ⟨_, rfl⟩
    have hr : (128 ≤ b.toNat ∧ b.toNat ≤ 191) ∧ 65535 < v ∧ v < 0x110000 := by
      split_ifs at hb <;> omega
    obtain ⟨c, hc⟩ := hch v (by omega)
    exact ⟨c, by rw [String.utf8EncodeChar.eq_1, hc, if_neg (by omega), if_neg (by omega),
      if_neg (by omega), @ofNat_eq byte _ (by omega), @ofNat_eq b _ (by omega),
      @ofNat_eq b' _ (by omega), @ofNat_eq b'' _ (by omega)]⟩
  next => cases h

theorem toNat_ofNat (h : n < 256) : (UInt8.ofNat n).toNat = n := UInt8.toNat_ofNat_of_lt' h

theorem within_tail (v : Nat) : Within (128, 191) (UInt8.ofNat (v % 64 + 128)) := by
  rw [Within, toNat_ofNat (by omega)]
  dsimp only
  omega

theorem run_fits (h : Forall₂ Within s bytes) : run s bytes = some [] := by
  induction h with
  | nil => rfl
  | cons hb _ ih => rw [run_cons, step, if_pos hb, Option.bind_some, ih]

theorem run_split (h : run s bytes = some []) :
    ∃ cs rest, bytes = cs ++ rest ∧ Forall₂ Within s cs ∧ run [] rest = some [] := by
  induction s generalizing bytes with
  | nil => exact ⟨[], bytes, rfl, .nil, h⟩
  | cons r s ih =>
    cases bytes with
    | nil => cases h
    | cons byte bytes =>
      rw [run_cons, step] at h
      split at h
      next hb =>
        obtain ⟨cs, rest, rfl, hm, hr⟩ := ih h
        exact ⟨byte :: cs, rest, rfl, .cons hb hm, hr⟩
      next => cases h

theorem run_char (h : lacks byte.toNat = some s) (hm : Forall₂ Within s bytes) :
    run [] (byte :: bytes) = some [] := by
  rw [run_cons, step, h, Option.bind_some, run_fits hm]

theorem run_encode (c : Char) : run [] (String.utf8EncodeChar c) = some [] := by
  have hv : c.val.toNat < 0xD800 ∨ 0xDFFF < c.val.toNat ∧ c.val.toNat < 0x110000 := c.valid
  rw [String.utf8EncodeChar.eq_1]
  generalize c.val.toNat = v at hv ⊢
  split_ifs
  · exact run_char (by rw [toNat_ofNat (by omega), lacks, if_pos (by omega)]) .nil
  · refine run_char (by rw [toNat_ofNat (by omega), lacks, if_neg (by omega), if_neg (by omega),
      if_pos (by omega)]) (.cons ?_ .nil)
    rw [second, if_neg (by omega), if_neg (by omega), if_neg (by omega), if_neg (by omega)]
    exact within_tail v
  · refine run_char (by rw [toNat_ofNat (by omega), lacks, if_neg (by omega), if_neg (by omega),
      if_neg (by omega), if_pos (by omega)]) (.cons ?_ (.cons (within_tail v) .nil))
    rw [Within, toNat_ofNat (by omega), second]
    split_ifs <;> dsimp only <;> omega
  · refine run_char (by rw [toNat_ofNat (by omega), lacks, if_neg (by omega), if_neg (by omega),
      if_neg (by omega), if_neg (by omega), if_pos (by omega)])
      (.cons ?_ (.cons (within_tail (v / 64)) (.cons (within_tail v) .nil)))
    rw [Within, toNat_ofNat (by omega), second]
    split_ifs <;> dsimp only <;> omega

theorem exists_text {bytes : List UInt8} (h : run [] bytes = some []) :
    ∃ t : Text, t.bytes = bytes := by
  match bytes with
  | [] => exact ⟨[], rfl⟩
  | byte :: bytes =>
    rw [run_cons, step] at h
    obtain ⟨s, hl, hs⟩ := Option.bind_eq_some_iff.mp h
    obtain ⟨cs, rest, he, hm, hr⟩ := run_split hs
    obtain ⟨c, hc⟩ := exists_encode hl hm
    obtain ⟨t, ht⟩ := exists_text hr
    exact ⟨c :: t, by rw [Text.bytes, flatMap_cons, hc, he, ← ht]; rfl⟩
termination_by bytes.length
decreasing_by
  rw [he, length_cons, length_append]
  omega

theorem run_eq_nil_iff : run [] bytes = some [] ↔ ∃ t : Text, t.bytes = bytes := by
  refine ⟨exists_text, ?_⟩
  rintro ⟨t, rfl⟩
  induction t with
  | nil => rfl
  | cons c t ih =>
    rw [Text.bytes, flatMap_cons, run_append, run_encode]
    exact ih

/-! ## Where a text breaks off -/

theorem step_width (h : step s byte = some s') (hs : s = [] → n = 0) (hw : n + s.length ≤ 4) :
    n + 1 + s'.length ≤ 4 := by
  cases s with
  | nil =>
    rw [hs rfl]
    rw [step, lacks] at h
    split_ifs at h <;> cases h <;> simp
  | cons r s =>
    rw [step] at h
    split_ifs at h
    cases h
    rw [length_cons] at hw
    omega

/-- A text that breaks off inside a character is short of at most four bytes. -/
structure Broken (bytes : List UInt8) (s : Lacks) : Prop where
  run : run [] bytes = some s
  nil : s = [] ↔ bytes = []
  width : bytes.length + s.length ≤ 4

theorem broken_nil : Broken [] [] := ⟨rfl, iff_of_true rfl rfl, by decide⟩

namespace Broken

variable {cur : List UInt8} (h : Broken cur s)
include h

theorem length_lt (hs : s ≠ []) : cur.length < 4 := by
  have hw := h.width
  have hp := length_pos_iff.mpr hs
  omega

theorem run_concat : FromUtf8.run [] (cur ++ [byte]) = step s byte := by
  rw [run_append, h.run, Option.bind_some, run_cons]
  exact Option.bind_fun_some _

theorem concat (hst : step s byte = some s') (hs : s' ≠ []) : Broken (cur ++ [byte]) s' := by
  refine ⟨h.run_concat.trans hst, iff_of_false hs (by simp), ?_⟩
  rw [length_append]
  exact step_width hst (fun hs => by rw [h.nil.mp hs]; rfl) h.width

end Broken

theorem scan_spec {cur : List UInt8} (h : Broken cur s) (done : List UInt8) :
    match scan done.length cur.length s bytes with
    | .ok _ => run s bytes = some []
    | .error ⟨start, none⟩ =>
      ∃ s', run s bytes = some s' ∧ s' ≠ [] ∧ Broken ((done ++ (cur ++ bytes)).drop start) s'
    | .error ⟨_, some _⟩ => run s bytes = none := by
  induction bytes generalizing done cur s with
  | nil =>
    by_cases hs : s = []
    · simp only [scan, if_pos hs]
      rw [hs, run_nil]
    · simp only [scan, if_neg hs, append_nil, drop_left]
      exact ⟨s, rfl, hs, h⟩
  | cons byte bytes ih =>
    rw [scan, run_cons]
    match hst : step s byte with
    | none => rfl
    | some [] =>
      have h' := ih broken_nil (done ++ (cur ++ [byte]))
      simpa [Nat.add_assoc] using h'
    | some (r :: s') =>
      simpa using ih (h.concat hst (cons_ne_nil _ _)) done

theorem fromUtf8_spec (bytes : List UInt8) :
    match fromUtf8 bytes with
    | .ok _ => run [] bytes = some []
    | .error ⟨start, none⟩ => ∃ s, run [] bytes = some s ∧ s ≠ [] ∧ Broken (bytes.drop start) s
    | .error ⟨_, some _⟩ => run [] bytes = none :=
  scan_spec broken_nil []

end FromUtf8
