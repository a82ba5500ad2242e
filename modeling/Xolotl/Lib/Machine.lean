import Mathlib

/-! Machines that answer calls one after the other: their runs, what is collected along a run,
and the rule of invariants. -/

namespace Machine

open List

variable {σ ι ω α : Type*} (step : σ → ι → ω × σ) (emit : σ → ι → List α)

def run (s : σ) (calls : List ι) : σ := calls.foldl (fun s call => (step s call).2) s

/-- What the calls of a run emit, each from the state it meets. -/
def collect : σ → List ι → List α
  | _, [] => []
  | s, call :: calls => emit s call ++ collect (step s call).2 calls

/-- A condition that every call of a run meets in the state it is made in. -/
def Along (P : σ → ι → Prop) : σ → List ι → Prop
  | _, [] => True
  | s, call :: calls => P s call ∧ Along P (step s call).2 calls

variable {s : σ} {calls : List ι}

theorem run_append (s : σ) (calls more : List ι) :
    run step s (calls ++ more) = run step (run step s calls) more := foldl_append

variable {calls : List ι} {l : List α}

theorem along_of_forall {P : ι → Prop} (s : σ) (h : ∀ call ∈ calls, P call) :
    Along step (fun _ call => P call) s calls := by
  induction calls generalizing s with
  | nil => exact trivial
  | cons call calls ih =>
    obtain ⟨hca, hc⟩ := forall_mem_cons.mp h
    exact ⟨hca, ih _ hc⟩

variable {P : σ → ι → Prop} {I : List α → σ → Prop}

theorem along_and {Q : σ → ι → Prop} {s : σ} (hp : Along step P s calls)
    (hq : Along step Q s calls) : Along step (fun s call => P s call ∧ Q s call) s calls := by
  induction calls generalizing s with
  | nil => exact trivial
  | cons call calls ih => exact ⟨⟨hp.1, hq.1⟩, ih hp.2 hq.2⟩

theorem along_append (s : σ) (calls more : List ι) : Along step P s (calls ++ more) ↔
      Along step P s calls ∧ Along step P (run step s calls) more := by
  induction calls generalizing s with
  | nil => exact ⟨fun h => ⟨trivial, h⟩, And.right⟩
  | cons call calls ih => exact (and_congr_right fun _ => ih _).trans and_assoc.symm

theorem run_cons (s : σ) (call : ι) (calls : List ι) :
    run step s (call :: calls) = run step (step s call).2 calls := rfl

theorem collect_append (s : σ) (calls more : List ι) : collect step emit s (calls ++ more) =
      collect step emit s calls ++ collect step emit (run step s calls) more := by
  induction calls generalizing s with
  | nil => rfl
  | cons call calls ih =>
    rw [cons_append, collect, collect, ih, run_cons, append_assoc]

variable {step emit}

theorem run_invariant {I : σ → Prop} (hs : ∀ s call, I s → I (step s call).2) (h : I s)
    (calls : List ι) : I (run step s calls) := by
  induction calls generalizing s with
  | nil => exact h
  | cons call calls ih => exact ih (hs s call h)

theorem collect_invariant_along
    (hs : ∀ log s call, P s call → I log s → I (log ++ emit s call) (step s call).2)
    (h : I l s) (calls : List ι) (ha : Along step P s calls) :
    I (l ++ collect step emit s calls) (run step s calls) := by
  induction calls generalizing s l with
  | nil =>
    rw [collect, append_nil]
    exact h
  | cons call calls ih =>
    rw [collect, ← append_assoc]
    exact ih (hs l s call ha.1 h) ha.2

theorem collect_invariant (hs : ∀ log s call, I log s → I (log ++ emit s call) (step s call).2)
    (h : I l s) (calls : List ι) : I (l ++ collect step emit s calls) (run step s calls) :=
  collect_invariant_along (P := fun _ _ => True) (fun log s call _ => hs log s call) h calls
    (along_of_forall _ s fun _ _ => trivial)

end Machine
