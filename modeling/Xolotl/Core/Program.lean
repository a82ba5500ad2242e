import Mathlib

/-! Linked execution images and host value semantics: faults, structured
instructions, image validation, and the value operations a host supplies. -/

namespace Xolotl.Core

inductive Fault
  | version | invalidNode | invalidImport | invalidBinding | missingBinding | tasks | frames
  | analysisCapacity | fuel | iterations | type | cancelled | staleEvent | sequenceExhausted
  | imageMismatch | invalidState | authority
  deriving DecidableEq, Repr

inductive Join
  | all | race
  deriving DecidableEq, Repr

inductive NodeKind (V E : Type)
  | literal (value : V)
  | input
  | load (slot : Nat)
  | fail (error : E)
  | request (index : Nat)
  | then_ (first then_ : Nat)
  | catch_ (body recover : Nat)
  | finally_ (body cleanup : Nat)
  | if_ (yes no : Nat)
  | branch (condition yes no : Nat)
  | let_ (slot value body : Nat)
  | while_ (condition body max : Nat)
  | fork (left right : Nat) (join : Join)
  | call (entry : Nat)
  | scope (index body : Nat)
  deriving DecidableEq, Repr

structure Node (V E : Type) where
  kind : NodeKind V E
  next : Option Nat := none
  position : Nat := 0
  deriving DecidableEq, Repr

/-- Visit every instruction, import and binding address of a node; the first
rejected address stops the traversal. -/
def Node.visitIndices {V E F : Type} (n : Node V E) (node index binding : Nat → Except F Unit) :
    Except F Unit := do
  if let some next := n.next then
    node next
  match n.kind with
  | .literal _ | .input | .fail _ => pure ()
  | .load slot => binding slot
  | .request i => index i
  | .call entry => node entry
  | .then_ a b | .catch_ a b | .finally_ a b | .if_ a b | .while_ a b _ | .fork a b _ => do
    node a
    node b
  | .branch condition yes no => do
    node condition
    node yes
    node no
  | .let_ slot value body => do
    binding slot
    node value
    node body
  | .scope i body => do
    index i
    node body

def imageVersion : Nat := 1

structure ProgramImage (V E : Type) where
  version : Nat := imageVersion
  id : Nat := 0
  nodes : List (Node V E)
  entry : Nat := 0
  bindings : Nat := 0
  imports : Nat := 0
  deriving DecidableEq, Repr

namespace ProgramImage

variable {V E : Type}

def node (image : ProgramImage V E) (index : Nat) : Except Fault (Node V E) :=
  match image.nodes[index]? with
  | some n => .ok n
  | none => .error .invalidNode

theorem node_error {image : ProgramImage V E} {index : Nat} {e : Fault}
    (h : image.node index = .error e) : e = .invalidNode := by
  unfold node at h
  split at h
  · cases h
  · cases h
    rfl

def validate (image : ProgramImage V E) : Except Fault Unit := do
  if image.version ≠ imageVersion then
    throw .version
  discard (image.node image.entry)
  image.nodes.forM fun n => n.visitIndices
    (fun i => discard (image.node i))
    (fun i => if i < image.imports then .ok () else .error .invalidImport)
    (fun i => if i < image.bindings then .ok () else .error .invalidBinding)

end ProgramImage

/-- Value operations supplied by a host. They may change the host's own state. -/
structure Values (S V E : Type) where
  unit : StateM S V
  truth : V → StateM S (Except E Bool)
  pair : V → V → StateM S (Except E V)
  error : Fault → StateM S E
  errorValue : E → StateM S V
  /-- Preserve control-flow provenance without changing the selected value. -/
  influence : V → V → StateM S V := fun value _ => pure value
  influenceResult : Except E V → V → StateM S (Except E V) := fun result control =>
    match result with
    | .ok value => return .ok (← influence value control)
    | .error e => return .error e
  retainControl : V → StateM S V := pure
  retainResult : Except E V → StateM S V := fun result =>
    match result with
    | .ok value => retainControl value
    | .error e => do retainControl (← errorValue e)

end Xolotl.Core
