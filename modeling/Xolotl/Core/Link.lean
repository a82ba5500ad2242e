import Xolotl.Core.Authority
import Xolotl.Core.Waiting

/-! Images linked against process-owned handles, and advancing in slices of fuel: how
the fuel of one `advance` is divided over several calls cannot be observed. -/

namespace Xolotl.Core

variable {S V E : Type}

structure ImportBinding where
  handle : HandleKey
  method : Nat
  deriving DecidableEq, Repr

structure LinkedProgram (V E : Type) where
  image : ProgramImage V E
  bindings : List ImportBinding
  owner : Nat

def LinkedProgram.authorize (program : LinkedProgram V E) (index : Nat) (handles : HandleTable) :
    Except Fault Nat :=
  match program.bindings[index]? with
  | none => .error .invalidImport
  | some binding =>
    (handles.authorize binding.handle program.owner binding.method).mapError fun _ => .authority

namespace Machine

/-- Advance a linked image; a request whose import is no longer authorized fails
before the host receives it. -/
def advanceLinked (program : LinkedProgram V E) (handles : HandleTable) (values : Values S V E)
    (fuel : Nat) : StateM (Machine S V E) (Advance V E) := do
  match ← advance program.image values fuel with
  | .request request =>
    match program.authorize request.index handles with
    | .ok _ => return .request request
    | .error fault => do
      let error ← ask (values.error fault)
      match ← complete program.image values request.task request.ticket
          (.complete (.error error)) with
      | .ok () => return .yielded
      | .error e => return .done (← terminalFault values e)
  | other => return other

variable {image : ProgramImage V E} {values : Values S V E} {m : Machine S V E}

theorem advanceLoop_add (a b : Nat) (m : Machine S V E) : advanceLoop image values (a + b) m =
    match advanceLoop image values a m with
    | (.yielded, m') => advanceLoop image values b m'
    | answered => answered := by
  induction a generalizing m with
  | zero =>
    rw [Nat.zero_add]
    rfl
  | succ a ih =>
    rw [Nat.succ_add, advanceLoop_succ, advanceLoop_succ]
    -- A turn that answers ends either call; after any other the loops go on alike.
    rcases turn image values m with ⟨_ | _ | _ | _ | _ | _ | _, m'⟩
    case moved | faulted => exact ih m'
    all_goals rfl

theorem advance_add (hf : m.exec.Forest) (a b : Nat) : advance image values (a + b) m =
    match advance image values a m with
    | (.yielded, m') => advance image values b m'
    | answered => answered := by
  by_cases hid : image.id = m.exec.imageId
  · have hr : Run values m.exec [] m.exec := .nil
    obtain ⟨turns, ht, -⟩ := hr.advanceLoop hf hid a
    have hid' := hid.trans (ht.fixed hf).imageId.symm
    rw [advance_eq_advanceLoop values hid, advance_eq_advanceLoop values hid, advanceLoop_add]
    generalize advanceLoop image values a m = answered at hid'
    rcases answered with ⟨_ | _ | _ | _ | _, m'⟩
    case yielded => exact (advance_eq_advanceLoop values hid' b).symm
    all_goals rfl
  · -- Another image ends the execution, whatever the fuel.
    have hs : advance image values (a + b) m = advance image values a m := by
      show (if _ then _ else _ : StateM (Machine S V E) _) m = (if _ then _ else _ : StateM _ _) m
      rw [if_pos hid, if_pos hid]
    obtain ⟨result, hd⟩ := advance_mismatch values hid a
    rw [hs]
    generalize advance image values a m = answered at hd
    obtain ⟨_, m'⟩ := answered
    cases hd
    rfl

end Machine

/-- How fuel is sliced cannot be observed. Advancing with `a` and, if that yields for
lack of fuel, again with `b`, gives the answer, the execution and the host state of one
call with `a + b`; and so it does for a linked image, whose calls also yield when they
fail a request. -/
theorem fuel_slicing_unobservable {P : ProgramImage V E → Prop} {values : Values S V E}
    {m : Machine S V E} (h : Reachable P values m.exec) (a b : Nat) :
    (∀ image : ProgramImage V E, Machine.advance image values (a + b) m =
      match Machine.advance image values a m with
      | (.yielded, m') => Machine.advance image values b m'
      | answered => answered) ∧
    ∀ (program : LinkedProgram V E) (handles : HandleTable),
      Machine.advanceLinked program handles values (a + b) m =
        match Machine.advance program.image values a m with
        | (.yielded, _) => Machine.advanceLinked program handles values b
            (Machine.advanceLinked program handles values a m).2
        | _ => Machine.advanceLinked program handles values a m := by
  refine ⟨fun _ => Machine.advance_add h.forest a b, ?_⟩
  intro program handles
  unfold Machine.advanceLinked
  simp only [bind, StateT.bind, Machine.advance_add h.forest a b]
  rcases Machine.advance program.image values a m with ⟨_ | _ | _ | _ | _, m'⟩ <;> rfl

theorem fuel_slicing_unobservable_yielded :
    let image : ProgramImage Int Fault :=
      { nodes := [{ kind := .literal 1, next := some 1 }, { kind := .literal 2 }] }
    ∃ m : Machine Unit Int Fault, Reachable (· = image) numbers m.exec ∧
      (Machine.advance image numbers 1 m).1 = .yielded ∧
      Machine.advance image numbers 3 m =
        Machine.advance image numbers 2 (Machine.advance image numbers 1 m).2 := by
  intro image
  have hreach : Reachable (· = image) numbers _ :=
    .new rfl ⟨1, 4, 0, { bindingsPerTask := 0 }, 7, 0, rfl⟩
  refine ⟨⟨_, ()⟩, hreach, rfl, ?_⟩
  exact (fuel_slicing_unobservable (m := ⟨_, ()⟩) hreach 1 2).1 image

end Xolotl.Core
