import Mathlib

/-! Glob patterns over an arbitrary alphabet. A pattern token is either a
globstar, which absorbs any number of targets, or covers exactly one target.
`Matches` is the language of a pattern and `scan` is the greedy matcher that
keeps a single retry position; the two agree, and inclusion of token coverage
lifts to inclusion of languages. -/

namespace Glob

open List
variable {α β γ : Type*} {star : α → Bool} {covers : α → β → Bool}

inductive Matches (star : α → Bool) (covers : α → β → Bool) : List α → List β → Prop
  | nil : Matches star covers [] []
  | skip {a p s} : star a = true → Matches star covers p s → Matches star covers (a :: p) s
  | absorb {a p x s} : star a = true → Matches star covers (a :: p) s →
      Matches star covers (a :: p) (x :: s)
  | single {a p x s} : star a = false → covers a x = true → Matches star covers p s →
      Matches star covers (a :: p) (x :: s)

/-- The targets left to the latest globstar: the pattern after it and the
suffix at which it last gave up absorbing. -/
abbrev Retry (α β : Type*) := Option (List α × List β)

def scan (star : α → Bool) (covers : α → β → Bool) : List α → List β → Retry α β → Bool
  | pat, [], _ => pat.all star
  | pat, x :: seg, retry =>
    match pat with
    | a :: pat =>
      if star a then scan star covers pat (x :: seg) (some (pat, x :: seg))
      else if covers a x then scan star covers pat seg retry
      else match retry with
        | some (rp, _ :: rs) => scan star covers rp rs (some (rp, rs))
        | _ => false
    | [] => match retry with
        | some (rp, _ :: rs) => scan star covers rp rs (some (rp, rs))
        | _ => false
termination_by pat seg retry =>
  (max pat.length (retry.elim 0 (·.1.length)), retry.elim 0 (·.2.length), seg.length)
decreasing_by
  all_goals grind

variable {a : α} {x : β} {pat p : List α} {retry : Retry α β} {s seg : List β}

theorem scan_miss (hp : ∀ a p, pat = a :: p → star a = false ∧ covers a x = false)
    (seg : List β) (hr : ∀ rp y rs, retry ≠ some (rp, y :: rs)) :
    scan star covers pat (x :: seg) retry = false := by
  rw [scan.eq_def]
  rcases retry with _ | ⟨rp, _ | ⟨y, rs⟩⟩
  case some.cons => exact absurd rfl (hr rp y rs)
  all_goals
    cases pat with
    | nil => rfl
    | cons a p =>
      obtain ⟨ha, hc⟩ := hp a p rfl
      simp only [ha, hc, Bool.false_eq_true, if_false]

theorem scan_retry (hp : ∀ a p, pat = a :: p → star a = false ∧ covers a x = false)
    (seg : List β) (rp : List α) (y : β) (rs : List β) :
    scan star covers pat (x :: seg) (some (rp, y :: rs)) =
      scan star covers rp rs (some (rp, rs)) := by
  rw [scan.eq_def]
  cases pat with
  | nil => rfl
  | cons a p =>
    obtain ⟨ha, hc⟩ := hp a p rfl
    simp only [ha, hc, Bool.false_eq_true, if_false]

theorem Matches.absorb_append (ha : star a = true)
    (h : Matches star covers (a :: p) s) (w : List β) : Matches star covers (a :: p) (w ++ s) := by
  induction w with
  | nil => exact h
  | cons x w ih => exact .absorb ha ih

theorem Matches.globstar_split (ha : star a = true)
    (h : Matches star covers (a :: p) s) : ∃ w z, s = w ++ z ∧ Matches star covers p z := by
  induction s with
  | nil =>
    cases h with
    | skip _ h => exact ⟨[], [], rfl, h⟩
  | cons x s ih =>
    cases h with
    | skip _ h => exact ⟨[], x :: s, rfl, h⟩
    | absorb _ h =>
      obtain ⟨w, z, rfl, hz⟩ := ih h
      exact ⟨x :: w, z, rfl, hz⟩
    | single hna _ _ => rw [ha] at hna; cases hna

theorem Matches.single_split {u : List α} (hu : ∀ a ∈ u, star a = false)
    (h : Matches star covers (u ++ p) s) :
    ∃ v z, s = v ++ z ∧ v.length = u.length ∧ Matches star covers p z := by
  induction u generalizing s with
  | nil => exact ⟨[], s, rfl, rfl, h⟩
  | cons a u ih =>
    have ha := hu a (mem_cons_self ..)
    cases h with
    | skip hs _ | absorb hs _ => rw [ha] at hs; cases hs
    | single _ _ h =>
      obtain ⟨v, z, rfl, hl, hz⟩ := ih (fun b hb => hu b (mem_cons_of_mem _ hb)) h
      exact ⟨_ :: v, z, rfl, by simp [hl], hz⟩

theorem matches_globstar_iff (ha : star a = true) :
    Matches star covers (a :: p) s ↔ ∃ n ≤ s.length, Matches star covers p (s.drop n) := by
  constructor
  · intro h
    obtain ⟨w, z, rfl, hz⟩ := h.globstar_split ha
    refine ⟨w.length, by simp, ?_⟩
    rwa [drop_left]
  · rintro ⟨n, -, h⟩
    have hn := (Matches.skip ha h).absorb_append ha (s.take n)
    rwa [take_append_drop] at hn

variable {rp : List α} {sub : α → α → Bool}

theorem Matches.refl (hs : ∀ a, sub a a = true) (p : List α) :
    Matches star sub p p := by
  induction p with
  | nil => exact .nil
  | cons a p ih =>
    cases ha : star a with
    | true => exact .absorb ha (.skip ha ih)
    | false => exact .single ha (hs a) ih

theorem matches_nil_iff : Matches star covers p ([] : List β) ↔ p.all star = true := by
  induction p with
  | nil => simp [Matches.nil]
  | cons a p ih =>
    constructor
    · intro h
      cases h with
      | skip ha h => simpa [ha] using ih.mp h
    · intro h
      rw [all_cons, Bool.and_eq_true] at h
      exact .skip h.1 (ih.mpr h.2)

theorem not_matches_nil_cons : ¬ Matches star covers [] (x :: s) := nofun

theorem matches_single_iff (ha : star a = false) :
    Matches star covers (a :: p) (x :: s) ↔ covers a x = true ∧ Matches star covers p s := by
  constructor
  · intro h
    cases h with
    | skip hs _ | absorb hs _ => rw [ha] at hs; cases hs
    | single _ hc h => exact ⟨hc, h⟩
  · rintro ⟨hc, h⟩
    exact .single ha hc h

/-- Some proper suffix of the retry position still matches the pattern after
the latest globstar. -/
def Later (star : α → Bool) (covers : α → β → Bool) (retry : Retry α β) : Prop :=
  ∃ rp rs w z, retry = some (rp, rs) ∧ w ≠ [] ∧ rs = w ++ z ∧ Matches star covers rp z

/-- The current position was reached from the retry position by single tokens
only, so both suffixes moved by the same distance. -/
def Reached (star : α → Bool) (pat : List α) (seg : List β) (retry : Retry α β) : Prop :=
  ∀ rp rs, retry = some (rp, rs) → ∃ u v, rp = u ++ pat ∧ rs = v ++ seg ∧
    v.length = u.length ∧ ∀ a ∈ u, star a = false

theorem later_cons_iff {y : β} {rs : List β} :
    Later star covers (some (rp, y :: rs)) ↔
      Matches star covers rp rs ∨ Later star covers (some (rp, rs)) := by
  constructor
  · rintro ⟨rp, _, w, z, h, hw, rfl, hz⟩
    obtain ⟨rfl, hs⟩ := Prod.mk.inj (Option.some.inj h)
    cases w with
    | nil => exact absurd rfl hw
    | cons b w =>
      obtain ⟨-, rfl⟩ := List.cons.inj hs
      cases w with
      | nil => exact .inl hz
      | cons c w => exact .inr ⟨_, _, c :: w, z, rfl, by simp, rfl, hz⟩
  · rintro (h | ⟨rp, _, w, z, h, -, rfl, hz⟩)
    · exact ⟨_, _, [y], rs, rfl, by simp, rfl, h⟩
    · obtain ⟨rfl, rfl⟩ := Prod.mk.inj (Option.some.inj h)
      exact ⟨_, _, y :: w, z, rfl, by simp, rfl, hz⟩

theorem not_later_none : ¬ Later star covers (none : Retry α β) := by
  rintro ⟨_, _, _, _, h, -⟩
  cases h

theorem not_later_nil : ¬ Later star covers (some (rp, ([] : List β))) := by
  rintro ⟨_, _, w, z, h, hw, hs, -⟩
  obtain ⟨rfl, rfl⟩ := Prod.mk.inj (Option.some.inj h)
  exact hw (append_eq_nil_iff.mp hs.symm).1

theorem reached_refl (pat : List α) (seg : List β) : Reached star pat seg (some (pat, seg)) := by
  intro rp rs h
  obtain ⟨rfl, rfl⟩ := Prod.mk.inj (Option.some.inj h)
  exact ⟨[], [], rfl, rfl, rfl, by simp⟩

theorem Reached.single (ha : star a = false) (h : Reached star (a :: pat) (x :: seg) retry) :
    Reached star pat seg retry := by
  intro rp rs hr
  obtain ⟨u, v, rfl, rfl, hl, hu⟩ := h rp rs hr
  refine ⟨u ++ [a], v ++ [x], by simp, by simp, by simp [hl], ?_⟩
  intro b hb
  rcases mem_append.mp hb with hb | hb
  · exact hu b hb
  · rw [mem_singleton.mp hb]
    exact ha

/-- The exchange argument: whatever an earlier globstar could still absorb, the
globstar now met can absorb as well. -/
theorem Reached.exchange (ha : star a = true) (h : Reached star (a :: pat) seg retry)
    (hl : Later star covers retry) : Matches star covers (a :: pat) seg := by
  obtain ⟨rp, rs, w, z, hr, hw, hs, hz⟩ := hl
  obtain ⟨u, v, rfl, rfl, hle, hu⟩ := h rp rs hr
  obtain ⟨v', z', rfl, hle', hz'⟩ := hz.single_split hu
  have hz'' : z' <:+ v ++ seg := by
    rw [hs, ← append_assoc]
    exact suffix_append _ _
  have hsu : z' <:+ seg := by
    apply suffix_of_suffix_length_le hz'' (suffix_append _ _)
    have hle'' := congrArg List.length hs
    simp only [length_append] at hle''
    omega
  obtain ⟨t, rfl⟩ := hsu
  exact hz'.absorb_append ha t

theorem Reached.not_later_of_nil (h : Reached star pat [] retry) : ¬ Later star covers retry := by
  rintro ⟨rp, rs, w, z, hr, hw, hs, hz⟩
  obtain ⟨u, v, rfl, rfl, hl, hu⟩ := h rp rs hr
  obtain ⟨v', z', rfl, hl', -⟩ := hz.single_split hu
  have hl'' := congrArg List.length hs
  have hpos := length_pos_iff.mpr hw
  simp only [length_append, length_nil] at hl''
  omega

theorem not_matches_of_miss (hp : ∀ a p, pat = a :: p → star a = false ∧ covers a x = false) :
    ¬ Matches star covers pat (x :: seg) := by
  cases pat with
  | nil => exact not_matches_nil_cons
  | cons a p =>
    obtain ⟨ha, hc⟩ := hp a p rfl
    rw [matches_single_iff ha, hc]
    simp

theorem not_later_of_exhausted (hr : ∀ rp y rs, retry ≠ some (rp, y :: rs)) :
    ¬ Later star covers retry := by
  rcases retry with _ | ⟨rp, _ | ⟨y, rs⟩⟩
  · exact not_later_none
  · exact not_later_nil
  · exact absurd rfl (hr rp y rs)

theorem scan_iff (h : Reached star pat seg retry) : scan star covers pat seg retry = true ↔
      Matches star covers pat seg ∨ Later star covers retry := by
  -- The recursion of `scan`: finished, globstar, single token, and two ways to miss.
  induction pat, seg, retry using scan.induct star covers with
  | case1 pat retry =>
    rw [scan]
    exact ⟨fun hm => .inl (matches_nil_iff.mpr hm),
      fun hm => matches_nil_iff.mp (hm.resolve_right h.not_later_of_nil)⟩
  | case2 x seg retry a pat ha ih =>
    rw [scan.eq_def]
    simp only [ha, if_true]
    rw [ih (reached_refl _ _)]
    constructor
    · rintro (hm | ⟨_, _, w, z, hr, -, hs, hz⟩)
      · exact .inl (.skip ha hm)
      · obtain ⟨rfl, rfl⟩ := Prod.mk.inj (Option.some.inj hr)
        rw [hs]
        exact .inl ((Matches.skip ha hz).absorb_append ha w)
    · intro hm
      have hm : Matches star covers (a :: pat) (x :: seg) := hm.elim id (h.exchange ha)
      cases hm with
      | skip _ hm => exact .inl hm
      | absorb _ hm =>
        obtain ⟨w, z, rfl, hz⟩ := hm.globstar_split ha
        exact .inr ⟨_, _, x :: w, z, rfl, by simp, rfl, hz⟩
      | single hna _ _ => rw [ha] at hna; cases hna
  | case3 x seg retry a pat ha hc ih =>
    have ha : star a = false := by simpa using ha
    rw [scan.eq_def]
    simp only [ha, hc, if_true, Bool.false_eq_true, if_false]
    rw [ih (h.single ha), matches_single_iff ha]
    simp [hc]
  | case4 x seg a pat ha hc rp y rs ih =>
    have hp : ∀ b p, a :: pat = b :: p → star b = false ∧ covers b x = false := by
      rintro _ _ ⟨⟩
      exact ⟨by simpa using ha, by simpa using hc⟩
    rw [scan_retry hp, ih (reached_refl _ _), later_cons_iff]
    simp [not_matches_of_miss hp]
  | case5 x seg retry a pat ha hc hr =>
    have hp : ∀ b p, a :: pat = b :: p → star b = false ∧ covers b x = false := by
      rintro _ _ ⟨⟩
      exact ⟨by simpa using ha, by simpa using hc⟩
    rw [scan_miss hp seg hr]
    simp [not_matches_of_miss hp, not_later_of_exhausted hr]
  | case6 x seg rp y rs ih =>
    have hp : ∀ b p, ([] : List α) = b :: p → star b = false ∧ covers b x = false := nofun
    rw [scan_retry hp, ih (reached_refl _ _), later_cons_iff]
    simp [not_matches_of_miss hp]
  | case7 x seg retry hr =>
    have hp : ∀ b p, ([] : List α) = b :: p → star b = false ∧ covers b x = false := nofun
    rw [scan_miss hp seg hr]
    simp [not_matches_of_miss hp, not_later_of_exhausted hr]

/-- The greedy scan with one retry position decides the language of a pattern. -/
theorem scan_none_iff (pat : List α) (seg : List β) :
    scan star covers pat seg none = true ↔ Matches star covers pat seg := by
  rw [scan_iff (by intro _ _ h; cases h)]
  simp [not_later_none]

/-- Language inclusion. A pattern whose tokens cover the tokens of another one,
read as targets, matches everything the other one matches. -/
theorem Matches.trans {r : List α} (hsu : ∀ a b, star a = false → sub a b = true →
      star b = false ∧ ∀ x, covers b x = true → covers a x = true)
    (hpr : Matches star sub p r) (hrs : Matches star covers r s) : Matches star covers p s := by
  induction hpr generalizing s with
  | nil => exact hrs
  | skip ha _ ih => exact .skip ha (ih hrs)
  | @absorb a p b r ha _ ih =>
    rcases hb : star b with _ | _
    · cases hrs with
      | skip hs _ | absorb hs _ => rw [hb] at hs; cases hs
      | single _ _ hrs => exact .absorb ha (ih hrs)
    · obtain ⟨w, z, rfl, hz⟩ := hrs.globstar_split hb
      exact (ih hz).absorb_append ha w
  | @single a p b r ha hc _ ih =>
    obtain ⟨hb, hco⟩ := hsu a b ha hc
    cases hrs with
    | skip hs _ | absorb hs _ => rw [hb] at hs; cases hs
    | single _ hx hrs => exact .single ha (hco _ hx) (ih hrs)

end Glob
