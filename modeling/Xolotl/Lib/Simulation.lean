import Mathlib

/-! Two stateful computations that answer alike from related states and stay
related. The rules follow the structure of the programs, for plain and for
failing computations. -/

namespace Simulation

variable {σ τ ε α β : Type} {R : σ → τ → Prop}

/-- `m` and `n` give the same answer and keep their states related. -/
def Sim (R : σ → τ → Prop) (m : StateM σ α) (n : StateM τ α) : Prop :=
  ∀ x y, R x y → (m x).1 = (n y).1 ∧ R (m x).2 (n y).2

theorem Sim.pure (a : α) : Sim R (Pure.pure a : StateM σ α) (Pure.pure a : StateM τ α) :=
  fun _ _ h => ⟨rfl, h⟩

theorem Sim.bind {m : StateM σ α} {n : StateM τ α} {f : α → StateM σ β} {g : α → StateM τ β}
    (h : Sim R m n) (hf : ∀ a, Sim R (f a) (g a)) : Sim R (m >>= f) (n >>= g) := by
  intro x y hxy
  obtain ⟨ha, hr⟩ := h x y hxy
  have hb := hf (m x).1 (m x).2 (n y).2 hr
  refine ⟨?_, ?_⟩
  · show (f (m x).1 (m x).2).1 = (g (n y).1 (n y).2).1
    rw [hb.1, ha]
  · show R (f (m x).1 (m x).2).2 (g (n y).1 (n y).2).2
    rw [← ha]
    exact hb.2

theorem Sim.modifyGet {f : σ → α × σ} {g : τ → α × τ}
    (h : ∀ x y, R x y → (f x).1 = (g y).1 ∧ R (f x).2 (g y).2) :
    Sim R (MonadStateOf.modifyGet f : StateM σ α) (MonadStateOf.modifyGet g : StateM τ α) := h

/-- The same for computations that may fail; a failure keeps the state. -/
def SimE (R : σ → τ → Prop) (m : ExceptT ε (StateM σ) α) (n : ExceptT ε (StateM τ) α) : Prop :=
  ∀ x y, R x y → (m.run x).1 = (n.run y).1 ∧ R (m.run x).2 (n.run y).2

variable {m : ExceptT ε (StateM σ) α} {f : α → ExceptT ε (StateM σ) β} {x x' : σ}

theorem run_bind_ok {a : α} (h : m.run x = (.ok a, x')) : (m >>= f).run x = (f a).run x' := by
  show (match m.run x with | (r, x') => ExceptT.bindCont f r x') = _
  rw [h]
  rfl

theorem run_bind_error
    {e : ε} (h : m.run x = (.error e, x')) : (m >>= f).run x = (.error e, x') := by
  show (match m.run x with | (r, x') => ExceptT.bindCont f r x') = _
  rw [h]
  rfl

/-- `m` goes the way of `n`, unless it fails with something that ends the comparison. -/
def Follows (lax : ε → Prop) (R : σ → τ → Prop) (m : ExceptT ε (StateM σ) α)
    (n : ExceptT ε (StateM τ) α) : Prop :=
  ∀ x y, R x y → (∃ e, lax e ∧ (m.run x).1 = .error e) ∨
    (m.run x).1 = (n.run y).1 ∧ R (m.run x).2 (n.run y).2

theorem Follows.simE {n : ExceptT ε (StateM τ) α}
    (h : Follows (fun _ => False) R m n) : SimE R m n := by
  intro x y hxy
  rcases h x y hxy with ⟨e, he, -⟩ | h
  · exact he.elim
  · exact h

section Rules

variable {lax : ε → Prop}

theorem Follows.pure (a : α) : Follows lax R (Pure.pure a : ExceptT ε (StateM σ) α)
    (Pure.pure a : ExceptT ε (StateM τ) α) :=
  fun _ _ h => .inr ⟨rfl, h⟩

theorem Follows.throw (e : ε) : Follows lax R (MonadExcept.throw e : ExceptT ε (StateM σ) α)
    (MonadExcept.throw e : ExceptT ε (StateM τ) α) :=
  fun _ _ h => .inr ⟨rfl, h⟩

variable {m : ExceptT ε (StateM σ) α} {n : ExceptT ε (StateM τ) α} {f : α → ExceptT ε (StateM σ) β}
  {g : α → ExceptT ε (StateM τ) β}

theorem Follows.bind_of {P : α → Prop}
    (h : Follows lax R m n) (hP : ∀ x y, R x y → ∀ a, (m.run x).1 = .ok a → P a)
    (hf : ∀ a, P a → Follows lax R (f a) (g a)) : Follows lax R (m >>= f) (n >>= g) := by
  intro x y hxy
  have ha := hP x y hxy
  have hs := h x y hxy
  rcases hm : m.run x with ⟨r, x'⟩
  rcases hn : n.run y with ⟨r', y'⟩
  rw [hm, hn] at hs
  rw [hm] at ha
  rcases hs with ⟨e, he, hr⟩ | ⟨hr, hxy'⟩
  · obtain rfl : r = .error e := hr
    rw [run_bind_error hm]
    exact .inl ⟨e, he, rfl⟩
  · obtain rfl : r = r' := hr
    cases r with
    | ok a =>
      rw [run_bind_ok hm, run_bind_ok hn]
      exact hf a (ha a rfl) x' y' hxy'
    | error e =>
      rw [run_bind_error hm, run_bind_error hn]
      exact .inr ⟨rfl, hxy'⟩

theorem Follows.bind (h : Follows lax R m n) (hf : ∀ a, Follows lax R (f a) (g a)) :
    Follows lax R (m >>= f) (n >>= g) :=
  h.bind_of (P := fun _ => True) (fun _ _ _ _ _ => trivial) fun a _ => hf a

theorem Follows.modifyGet {f : σ → α × σ} {g : τ → α × τ}
    (h : ∀ x y, R x y → (f x).1 = (g y).1 ∧ R (f x).2 (g y).2) :
    Follows lax R (MonadState.modifyGet f : ExceptT ε (StateM σ) α)
      (MonadState.modifyGet g : ExceptT ε (StateM τ) α) := by
  intro x y hxy
  obtain ⟨ha, hr⟩ := h x y hxy
  refine .inr ⟨?_, hr⟩
  show Except.ok (f x).1 = Except.ok (g y).1
  rw [ha]

end Rules

end Simulation
