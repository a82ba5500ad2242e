import Xolotl.Types.PathText
import Xolotl.Types.Value

/-! Idempotency key material: one text made of numbers, a path and whatever a caller chose
as business key, which two calls share only if they may share a cached result. -/

namespace Xolotl.Types

open List Text

/-- The identity of one attempt; its coordinates are only compared and written out. -/
@[ext] structure OperationId where
  process : Nat
  execution : Nat
  invocation : Nat
  position : Nat
  attempt : Nat
  deriving DecidableEq

inductive OutputMode
  | unary
  | stream
  | collect (limit : Nat)
  | asyncProcess
  | sinkOnly
  deriving DecidableEq

@[ext] structure KeyScope where
  resource : Nat
  target : Option Path
  method : Nat
  output : OutputMode
  deriving DecidableEq

namespace Idempotency

def decimal (n : Nat) : Text := Nat.toDigits 10 n

def field (t : Text) : Text := t ++ ['/']

def sized (t : Text) : Text := field (decimal t.bytes.length) ++ t

def outputText : OutputMode → Text
  | .unary => "unary"
  | .stream => "stream"
  | .collect limit => "collect:" ++ decimal limit
  | .sinkOnly => "sink"
  | .asyncProcess => "process"

def operationText (op : OperationId) : Text :=
  field (decimal op.process) ++ (field (decimal op.execution) ++
    (field (decimal op.invocation) ++ (field (decimal op.position) ++ decimal op.attempt)))

def targetText (target : Option Path) : Text := (target.map Path.text).getD []

def businessKey (input : Value) : Option Text :=
  match input.get "_idem_key" with
  | some (.str key) => if key = [] then none else some key
  | _ => none

def tail (op : OperationId) : Option Text → Text
  | some business => "business/" ++ (field (decimal op.position) ++ sized business)
  | none => "operation/" ++ operationText op

def withScope (acting : Nat) (scope : KeyScope) (rest : Text) : Text :=
  "xolotl-idem-v1/" ++ (field (decimal acting) ++ (field (decimal scope.resource) ++
    (field (decimal scope.method) ++ (field (outputText scope.output) ++
      (sized (targetText scope.target) ++ '/' :: rest)))))

def deriveKey (op : OperationId) (acting : Nat) (input : Value) (scope : KeyScope) : Text :=
  withScope acting scope (tail op (businessKey input))

/-! ## Each part ends where its own text says -/

variable {a b rest rest' : Text} {m n : Nat}

theorem field_inj (ha : '/' ∉ a) (hb : '/' ∉ b) (h : field a ++ rest = field b ++ rest') :
    a = b ∧ rest = rest' := by
  have hs := splitOnce_append ha [] rest
  rw [show a ++ ['/'] ++ rest = b ++ ['/'] ++ rest' from h, splitOnce_append hb] at hs
  cases hs
  exact ⟨rfl, rfl⟩

theorem decimal_injective : Function.Injective decimal := by
  intro m n h
  rw [← Nat.ofDigitChars_ten_toDigits (n := m), ← Nat.ofDigitChars_ten_toDigits (n := n)]
  exact congrArg (Nat.ofDigitChars 10 · 0) h

theorem slash_not_mem_decimal : '/' ∉ decimal n := fun h =>
  absurd (Nat.isDigit_of_mem_toDigits (by decide) (by decide) h) (by decide)

theorem number_inj (h : field (decimal m) ++ rest = field (decimal n) ++ rest') :
    m = n ∧ rest = rest' := by
  obtain ⟨hd, hr⟩ := field_inj slash_not_mem_decimal slash_not_mem_decimal h
  exact ⟨decimal_injective hd, hr⟩

theorem sized_inj (h : sized a ++ rest = sized b ++ rest') : a = b ∧ rest = rest' := by
  rw [sized, sized, append_assoc, append_assoc] at h
  obtain ⟨hl, ht⟩ := number_inj h
  have hbs := congrArg bytes ht
  rw [bytes_append, bytes_append] at hbs
  have hab := bytes_injective (append_inj hbs hl).1
  subst hab
  exact ⟨rfl, append_cancel_left ht⟩

theorem slash_not_mem_outputText (mode : OutputMode) : '/' ∉ outputText mode := by
  cases mode with
  | collect limit =>
    exact not_mem_append (show '/' ∉ "collect:".toList by decide) slash_not_mem_decimal
  | _ => decide

theorem outputText_injective : Function.Injective outputText := by
  intro mode mode' h
  cases mode <;> cases mode'
  case collect.collect =>
    exact congrArg _ (decimal_injective (append_right_injective "collect:".toList h))
  all_goals first | rfl | exact absurd h (by decide) | exact absurd (cons.inj h).1 (by decide)

theorem targetText_injective : Function.Injective targetText := by
  intro target target' h
  match target, target', h with
  | none, none, _ => rfl
  | some p, none, h => exact absurd h p.text_ne_nil
  | none, some p, h => exact absurd h.symm p.text_ne_nil
  | some p, some q, h =>
    have hpq := congrArg Path.parse (show p.text = q.text from h)
    rw [p.parse_text, q.parse_text] at hpq
    rw [Except.ok.inj hpq]

theorem operationText_injective : Function.Injective operationText := by
  intro op op' h
  obtain ⟨hp, h⟩ := number_inj h
  obtain ⟨he, h⟩ := number_inj h
  obtain ⟨hi, h⟩ := number_inj h
  obtain ⟨hpos, h⟩ := number_inj h
  exact OperationId.ext hp he hi hpos (decimal_injective h)

/-! ## Keys that agree -/

/-- What two calls of one scope have to share: the business key and where it is used or, if
neither has one, everything. -/
def SameCall (op op' : OperationId) (key key' : Option Text) : Prop :=
  (∃ business, key = some business ∧ key' = some business ∧ op.position = op'.position) ∨
    key = none ∧ key' = none ∧ op = op'

variable {op op' : OperationId}

theorem tail_eq_iff {key key' : Option Text} :
    tail op key = tail op' key' ↔ SameCall op op' key key' := by
  constructor
  · intro h
    match key, key' with
    | some business, some business' =>
      obtain ⟨hpos, h⟩ := number_inj (append_right_injective "business/".toList h)
      rw [← append_nil (sized business), ← append_nil (sized business')] at h
      obtain ⟨rfl, -⟩ := sized_inj h
      exact .inl ⟨_, rfl, rfl, hpos⟩
    | none, none =>
      have hop := operationText_injective (append_right_injective "operation/".toList h)
      exact .inr ⟨rfl, rfl, hop⟩
    -- The two kinds of tail differ in their first letter.
    | some _, none => exact absurd (cons.inj h).1 (by decide)
    | none, some _ => exact absurd (cons.inj h).1 (by decide)
  · rintro (⟨business, rfl, rfl, hpos⟩ | ⟨rfl, rfl, rfl⟩)
    · exact congrArg (fun n => "business/".toList ++ (field (decimal n) ++ sized business)) hpos
    · rfl

/-- Whatever text a caller puts in the business key, key material is shared only by calls of
one identity on one target, method and representation. -/
theorem deriveKey_eq_iff (op op' : OperationId) (acting acting' : Nat) (input input' : Value)
    (scope scope' : KeyScope) :
    deriveKey op acting input scope = deriveKey op' acting' input' scope' ↔
      acting = acting' ∧ scope = scope' ∧
        SameCall op op' (businessKey input) (businessKey input') := by
  constructor
  · intro h
    obtain ⟨hact, h⟩ := number_inj (append_right_injective "xolotl-idem-v1/".toList h)
    obtain ⟨hres, h⟩ := number_inj h
    obtain ⟨hm, h⟩ := number_inj h
    obtain ⟨hout, h⟩ := field_inj (slash_not_mem_outputText _) (slash_not_mem_outputText _) h
    obtain ⟨htgt, h⟩ := sized_inj h
    exact ⟨hact, KeyScope.ext hres (targetText_injective htgt) hm (outputText_injective hout),
      tail_eq_iff.mp (cons.inj h).2⟩
  · rintro ⟨rfl, rfl, h⟩
    exact congrArg (withScope acting scope) (tail_eq_iff.mpr h)

end Idempotency

end Xolotl.Types
