import Xolotl.Lib.FromUtf8

/-! UTF-8 validation of text that arrives in chunks: a character cut by the end of a chunk is
carried over as bytes. -/

namespace Xolotl.Types

open List FromUtf8

/-- The bytes in use of the array that carries a character on. -/
structure Utf8 where
  tail : List UInt8
  deriving DecidableEq

namespace Utf8

/-- Complete the carried character: either the input ends inside it, or some input is left. -/
def join (joined : List UInt8) : List UInt8 → Option (Utf8 ⊕ List UInt8)
  | [] => some (.inl ⟨joined⟩)
  | byte :: rest =>
    match fromUtf8 (joined ++ [byte]) with
    | .ok _ => some (.inr rest)
    | .error error =>
      if error.errorLen = none ∧ (joined ++ [byte]).length < 4 then join (joined ++ [byte]) rest
      else none

def whole (bytes : List UInt8) : Option Utf8 :=
  match fromUtf8 bytes with
  | .ok _ => some ⟨[]⟩
  | .error ⟨start, none⟩ => if 3 < (bytes.drop start).length then none else some ⟨bytes.drop start⟩
  | .error ⟨_, some _⟩ => none

def push (u : Utf8) (bytes : List UInt8) : Option Utf8 :=
  if u.tail = [] then whole bytes
  else
    match join u.tail bytes with
    | some (.inl u) => some u
    | some (.inr bytes) => whole bytes
    | none => none

def finish (u : Utf8) : Option Unit := if u.tail = [] then some () else none

def validate (chunks : List (List UInt8)) : Option Unit := (chunks.foldlM push ⟨[]⟩).bind finish

/-! ## Chunks make no difference -/

/-- After the bytes seen, the validator carries those of a broken character, or has refused. -/
def Outcome (seen : List UInt8) : Option Utf8 → Prop
  | some u => ∃ s, run [] seen = some s ∧ Broken u.tail s
  | none => run [] seen = none

variable {seen joined bytes : List UInt8} {s : Lacks} {u : Utf8}

theorem run_append_none (h : run [] seen = none) : run [] (seen ++ bytes) = none := by
  rw [run_append, h, Option.bind_none]

theorem outcome_whole (h : run [] seen = some []) (bytes : List UInt8) :
    Outcome (seen ++ bytes) (whole bytes) := by
  have hr : run [] (seen ++ bytes) = run [] bytes := by rw [run_append, h, Option.bind_some]
  have hs := fromUtf8_spec bytes
  unfold whole
  match hf : fromUtf8 bytes with
  | .ok _ =>
    rw [hf] at hs
    exact ⟨[], hr.trans hs, broken_nil⟩
  | .error ⟨start, none⟩ =>
    rw [hf] at hs
    obtain ⟨s, hs, hne, hb⟩ := hs
    dsimp only
    rw [if_neg (Nat.not_lt.mpr (Nat.le_of_lt_succ (hb.length_lt hne)))]
    exact ⟨s, hr.trans hs, hb⟩
  | .error ⟨_, some _⟩ =>
    rw [hf] at hs
    exact hr.trans hs

theorem outcome_join (h : run [] seen = some s) (hb : Broken joined s) (hne : s ≠ [])
    (bytes : List UInt8) :
    match join joined bytes with
    | some (.inl u) => Outcome (seen ++ bytes) (some u)
    | some (.inr rest) => ∃ front, bytes = front ++ rest ∧ run [] (seen ++ front) = some []
    | none => run [] (seen ++ bytes) = none := by
  induction bytes generalizing seen joined s with
  | nil => exact ⟨s, by rw [append_nil, h], hb⟩
  | cons byte rest ih =>
    have hr : run [] (seen ++ [byte]) = run [] (joined ++ [byte]) := by
      rw [run_append, run_append, h, hb.run]
    have hs := fromUtf8_spec (joined ++ [byte])
    rw [join]
    match hf : fromUtf8 (joined ++ [byte]) with
    | .ok _ =>
      rw [hf] at hs
      exact ⟨[byte], rfl, hr.trans hs⟩
    | .error ⟨start, some _⟩ =>
      rw [hf] at hs
      simp only [reduceCtorEq, false_and, if_false]
      rw [append_cons seen]
      exact run_append_none (hr.trans hs)
    | .error ⟨start, none⟩ =>
      rw [hf] at hs
      obtain ⟨s', hs, hne', -⟩ := hs
      have hb' := hb.concat (hb.run_concat.symm.trans hs) hne'
      simp only [true_and, if_pos (hb'.length_lt hne')]
      have hj := ih (hr.trans hs) hb' hne'
      rw [append_cons seen]
      generalize join (joined ++ [byte]) rest = result at hj ⊢
      match result, hj with
      | none, hj => exact hj
      | some (.inl _), hj => exact hj
      | some (.inr _), ⟨front, he, hf⟩ =>
        exact ⟨byte :: front, congrArg _ he, by rw [append_cons, hf]⟩

theorem outcome_push (h : Outcome seen (some u)) (bytes : List UInt8) :
    Outcome (seen ++ bytes) (u.push bytes) := by
  obtain ⟨s, hs, hb⟩ := h
  unfold push
  split
  next hn => exact outcome_whole (hb.nil.mpr hn ▸ hs) bytes
  next hn =>
    have hj := outcome_join hs hb (fun hs => hn (hb.nil.mp hs)) bytes
    split
    next he =>
      rw [he] at hj
      exact hj
    next he =>
      rw [he] at hj
      obtain ⟨front, rfl, hf⟩ := hj
      rw [← append_assoc]
      exact outcome_whole hf _
    next he =>
      rw [he] at hj
      exact hj

theorem outcome_pushes (h : Outcome seen (some u)) (chunks : List (List UInt8)) :
    Outcome (seen ++ chunks.flatten) (chunks.foldlM push u) := by
  induction chunks generalizing seen u with
  | nil => rwa [flatten_nil, append_nil]
  | cons bytes chunks ih =>
    have hp := outcome_push h bytes
    rw [foldlM_cons, flatten_cons, ← append_assoc]
    cases hu : u.push bytes with
    | none =>
      rw [hu] at hp
      exact run_append_none hp
    | some u' =>
      rw [hu] at hp
      exact ih hp

/-- However a text is cut into chunks, it is accepted if its bytes encode some text, and no
more than three bytes are ever carried over. -/
theorem validate_iff (chunks : List (List UInt8)) :
    ((validate chunks).isSome ↔ ∃ text : Text, text.bytes = chunks.flatten) ∧
      ∀ u ∈ chunks.foldlM push ⟨[]⟩, u.tail.length ≤ 3 := by
  have h0 : Outcome [] (some ⟨[]⟩) := ⟨[], rfl, broken_nil⟩
  have h := outcome_pushes h0 chunks
  rw [← run_eq_nil_iff, validate]
  cases hu : chunks.foldlM push ⟨[]⟩ with
  | none =>
    rw [hu] at h
    have h : run [] chunks.flatten = none := h
    simp [h]
  | some u =>
    rw [hu] at h
    obtain ⟨s, hs, hb⟩ := h
    rw [nil_append] at hs
    rw [hs, Option.bind_some, finish]
    by_cases hn : u.tail = []
    · simp [hn, hb.nil.mpr hn]
    · have hne : s ≠ [] := fun h => hn (hb.nil.mp h)
      refine ⟨by simp [hn, hne], ?_⟩
      rintro _ ⟨⟩
      exact Nat.le_of_lt_succ (hb.length_lt hne)

end Utf8

end Xolotl.Types
