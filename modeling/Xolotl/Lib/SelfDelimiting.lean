import Mathlib

/-! Codes whose end can be told from the text itself: two codewords followed by anything
agree only if they encode the same thing. -/

variable {α β ι : Type*}

/-- On the values that satisfy `P`, a codeword and what follows it are determined by the text. -/
def SelfDelimiting (P : α → Prop) (code : α → List ι) : Prop :=
  ∀ a b rest rest', P a → P b → code a ++ rest = code b ++ rest' → a = b ∧ rest = rest'

namespace SelfDelimiting

open List

variable {P : α → Prop} {Q : β → Prop} {code : α → List ι} {code' : β → List ι}

theorem of_length {n : Nat} (hl : ∀ a, (code a).length = n)
    (hi : ∀ a b, P a → P b → code a = code b → a = b) : SelfDelimiting P code := by
  intro a b rest rest' ha hb h
  obtain ⟨hc, hr⟩ := append_inj h ((hl a).trans (hl b).symm)
  exact ⟨hi a b ha hb hc, hr⟩

variable (h : SelfDelimiting P code)
include h

theorem prod (h' : SelfDelimiting Q code') :
    SelfDelimiting (fun x : α × β => P x.1 ∧ Q x.2) (fun x => code x.1 ++ code' x.2) := by
  rintro ⟨a, b⟩ ⟨c, d⟩ rest rest' ⟨ha, hb⟩ ⟨hc, hd⟩ heq
  rw [append_assoc, append_assoc] at heq
  obtain ⟨rfl, ht⟩ := h a c _ _ ha hc heq
  obtain ⟨rfl, hr⟩ := h' b d _ _ hb hd ht
  exact ⟨rfl, hr⟩

theorem comp {γ : Type*} {R : γ → Prop} {f : γ → α}
    (hf : Function.Injective f) (hR : ∀ c, R c → P (f c)) :
    SelfDelimiting R (fun c => code (f c)) := by
  intro a b rest rest' ha hb heq
  obtain ⟨hab, hr⟩ := h _ _ _ _ (hR a ha) (hR b hb) heq
  exact ⟨hf hab, hr⟩

omit h in
theorem prefixed {N : Nat → Prop} {count : Nat → List ι} (h : SelfDelimiting N count) :
    SelfDelimiting (fun body : List ι => N body.length)
      (fun body => count body.length ++ body) := by
  intro a b rest rest' ha hb heq
  rw [append_assoc, append_assoc] at heq
  obtain ⟨hl, ht⟩ := h _ _ _ _ ha hb heq
  exact append_inj ht hl

theorem flatMap {as bs : List α} (hl : as.length = bs.length)
    (ha : ∀ a ∈ as, P a) (hb : ∀ b ∈ bs, P b) (heq : as.flatMap code = bs.flatMap code) :
    as = bs := by
  induction as generalizing bs with
  | nil => exact (eq_nil_of_length_eq_zero hl.symm).symm
  | cons a as ih =>
    obtain ⟨b, bs, rfl⟩ := exists_cons_of_length_eq_add_one hl.symm
    obtain ⟨ha, has⟩ := forall_mem_cons.mp ha
    obtain ⟨hb, hbs⟩ := forall_mem_cons.mp hb
    obtain ⟨rfl, ht⟩ := h a b _ _ ha hb heq
    rw [ih (Nat.succ.inj hl) has hbs ht]

theorem injective {a b : α} (ha : P a) (hb : P b) (heq : code a = code b) : a = b :=
  (h a b [] [] ha hb (by rw [heq])).1

end SelfDelimiting
