import Mathlib

/-! Events within a sliding window, counted from a record that forgets. A record recalls the times
of all events from a floor on: whatever window ends at or after the floor, it counts the same. -/

namespace Window

open List

def within (width start : Int) (times : List Int) : List Int :=
  times.filter fun time => start < time ∧ time ≤ start + width

def after (start : Int) (times : List Int) : List Int := times.filter (start < ·)

def Rises (floor floor' : Option Int) : Prop := ∀ f ∈ floor, ∃ f' ∈ floor', f ≤ f'

/-- The record agrees with the times on every window that ends at the floor or later; without a
floor, on every window. -/
def Recalls (width : Int) (floor : Option Int) (times record : List Int) : Prop :=
  ∀ start, (∀ f ∈ floor, f - width ≤ start) → after start times = after start record

variable {width : Int} {floor : Option Int} {times record : List Int} {now : Int}

theorem Rises.refl (floor : Option Int) : Rises floor floor := fun f hf => ⟨f, hf, le_rfl⟩

theorem rises_some (h : ∀ f ∈ floor, f ≤ now) : Rises floor (some now) :=
  fun f hf => ⟨now, rfl, h f hf⟩

theorem after_append (start : Int) (times more : List Int) :
    after start (times ++ more) = after start times ++ after start more := filter_append ..

theorem after_after {start start' : Int} (h : start ≤ start') (times : List Int) :
    after start' (after start times) = after start' times := by
  unfold after
  rw [filter_filter]
  refine filter_congr fun time _ => ?_
  by_cases ht : start' < time
  · simp [h.trans_lt ht]
  · simp [ht]

theorem after_eq_nil {start : Int} (h : ∀ time ∈ times, time ≤ start) : after start times = [] :=
  filter_eq_nil_iff.mpr fun time ht => by simpa using h time ht

theorem Recalls.raise (h : Recalls width floor times record) {floor' : Option Int}
    (hfl : Rises floor floor') : Recalls width floor' times record := by
  intro start hs
  refine h start fun f hf => ?_
  obtain ⟨f', hf', hle⟩ := hfl f hf
  exact (Int.sub_le_sub_right hle width).trans (hs f' hf')

theorem Recalls.append (h : Recalls width floor times record) (hfl : ∀ f ∈ floor, f ≤ now) :
    Recalls width (some now) (times ++ [now]) (after (now - width) record ++ [now]) := by
  intro start hst
  have hn : now - width ≤ start := hst now rfl
  have hs := h start fun f hf => (Int.sub_le_sub_right (hfl f hf) width).trans hn
  rw [after_append, after_append, after_after hn, hs]

theorem Recalls.forget (h : Recalls width floor times record) (hfl : ∀ f ∈ floor, f ≤ now)
    (hp : ∀ time ∈ record, time ≤ now - width) : Recalls width (some now) times [] := by
  intro start hst
  have hn : now - width ≤ start := hst now rfl
  have hs := h start fun f hf => (Int.sub_le_sub_right (hfl f hf) width).trans hn
  rw [hs, after_eq_nil fun time ht => (hp time ht).trans hn]
  rfl

/-- A new event after fewer than `quota` in the window that ends with it keeps every window
within the quota. -/
theorem length_within_append {quota : Nat}
    (hbound : ∀ start, (within width start times).length ≤ quota)
    (hq : (after (now - width) times).length < quota) (start : Int) :
    (within width start (times ++ [now])).length ≤ quota := by
  have ha : within width start (times ++ [now]) =
      within width start times ++ within width start [now] := filter_append ..
  rw [ha, length_append]
  by_cases hno : start < now ∧ now ≤ start + width
  · have ho : within width start [now] = [now] := by simp [within, hno]
    have hs : (within width start times).length ≤ (after (now - width) times).length := by
      refine (monotone_filter_right times fun time ht => ?_).length_le
      simp only [decide_eq_true_eq] at ht ⊢
      omega
    rw [ho]
    exact Nat.lt_of_le_of_lt hs hq
  · have hn : within width start [now] = [] := by simp [within, hno]
    rw [hn]
    exact hbound start

end Window
