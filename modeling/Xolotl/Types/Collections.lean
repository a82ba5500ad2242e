import Xolotl.Types.Key
import Xolotl.Types.ValueList
import Xolotl.Types.ValueMap

/-! A program over shared collections: it owns handles to lists, maps and their builders,
clones snapshots and updates them in any order. The same operations are run over plain
lists and sorted association lists, and both give the same answers. -/

namespace Xolotl.Types

open Option

/-! ## Operations -/

inductive Source (K V : Type*)
  | list
  | map
  | listBuilder
  | mapBuilder
  | values (values : List V)
  | entries (entries : List (K × V))

inductive Update (K V : Type*)
  | push (value : V)
  | removePrefix (count : Nat)
  | set (index : Nat) (value : V)
  | insert (key : K) (value : V)
  | remove (key : K)
  | append (key : K) (value : V)
  | finish

inductive Operation (K V : Type*)
  | create (source : Source K V)
  | clone (handle : Nat)
  | update (handle : Nat) (change : Update K V)
  | concat (left right : Nat)

abbrev Outcome (V : Type*) := Except CollectionError (Option V)

/-- The operations of one kind of objects. An operation that the object does not have is
`none`: no program contains it. -/
structure Interface (K V O : Type*) where
  create : Source K V → O
  clone : O → Option O
  update : O → Update K V → Option (O × Outcome V)
  concat : O → O → Option (Except CollectionError O)

section Store

variable {K V O P : Type*}

namespace Interface

def enter (store : List O) : Except CollectionError O → List O × Outcome V
  | .ok object => (store ++ [object], .ok none)
  | .error e => (store, .error e)

def step (I : Interface K V O) (store : List O) : Operation K V → Option (List O × Outcome V)
  | .create source => some (store ++ [I.create source], .ok none)
  | .clone handle => (store[handle]?.bind I.clone).map fun object => (store ++ [object], .ok none)
  | .update handle change =>
    (store[handle]?.bind fun object => I.update object change).map fun (object, outcome) =>
      (store.set handle object, outcome)
  | .concat left right =>
    (store[left]?.bind fun l => store[right]?.bind fun r => I.concat l r).map (enter store)

def run (I : Interface K V O) : List O → List (Operation K V) → Option (List O × List (Outcome V))
  | store, [] => some (store, [])
  | store, operation :: operations =>
    (I.step store operation).bind fun (store, outcome) =>
      (run I store operations).map fun (store, outcomes) => (store, outcome :: outcomes)

structure Hom (I : Interface K V O) (J : Interface K V P) (f : O → P) : Prop where
  create : ∀ source, f (I.create source) = J.create source
  clone : ∀ object, (I.clone object).map f = J.clone (f object)
  update : ∀ object change,
    (I.update object change).map (Prod.map f id) = J.update (f object) change
  concat : ∀ left right, (I.concat left right).map (Except.map f) = J.concat (f left) (f right)

variable {I : Interface K V O} {J : Interface K V P} {f : O → P}

theorem Hom.step (h : Hom I J f) (store : List O) (operation : Operation K V) :
    (I.step store operation).map (Prod.map (List.map f) id) = J.step (store.map f) operation := by
  cases operation with
  | create source => simp [Interface.step, h.create]
  | clone handle =>
    simp only [Interface.step, List.getElem?_map]
    cases store[handle]? with
    | none => rfl
    | some object =>
      simp only [bind_some, map_some, ← h.clone, map_map]
      congr 1
      funext object
      simp
  | update handle change =>
    simp only [Interface.step, List.getElem?_map]
    cases store[handle]? with
    | none => rfl
    | some object =>
      simp only [bind_some, map_some, ← h.update, map_map]
      congr 1
      funext r
      simp [List.map_set]
  | concat left right =>
    simp only [Interface.step, List.getElem?_map]
    cases store[left]? with
    | none => rfl
    | some l =>
      cases store[right]? with
      | none => rfl
      | some r =>
        simp only [bind_some, map_some, ← h.concat, map_map]
        congr 1
        funext r
        cases r <;> simp [enter, Except.map]

theorem Hom.run (h : Hom I J f) (store : List O) (operations : List (Operation K V)) :
    (I.run store operations).map (Prod.map (List.map f) id) = J.run (store.map f) operations := by
  induction operations generalizing store with
  | nil => rfl
  | cons operation operations ih =>
    rw [Interface.run, Interface.run, ← h.step]
    cases I.step store operation with
    | none => rfl
    | some r =>
      simp only [bind_some, map_some, Prod.map, ← ih, map_map]
      rfl

/-! ### Snapshots -/

def target : Operation K V → Option Nat
  | .update handle _ => some handle
  | .create _ | .clone _ | .concat _ _ => none

variable {store store' : List O} {handle : Nat} {object : O}

theorem getElem?_step {operation : Operation K V} {outcome : Outcome V}
    (hs : I.step store operation = some (store', outcome))
    (ho : store[handle]? = some object) (ht : target operation ≠ some handle) :
    store'[handle]? = some object := by
  have he : ∀ added, (store ++ added)[handle]? = some object := fun added => by
    rw [List.getElem?_append_left (List.getElem?_eq_some_iff.mp ho).1, ho]
  cases operation with
  | create source =>
    cases hs
    exact he _
  | clone source =>
    obtain ⟨copy, -, heq⟩ := map_eq_some_iff.mp hs
    cases heq
    exact he _
  | update changed change =>
    obtain ⟨r, -, heq⟩ := map_eq_some_iff.mp hs
    cases heq
    rw [List.getElem?_set_ne fun h => ht (congrArg some h), ho]
  | concat left right =>
    obtain ⟨r, -, heq⟩ := map_eq_some_iff.mp hs
    cases r with
    | error e =>
      cases heq
      exact ho
    | ok joined =>
      cases heq
      exact he _

theorem getElem?_run {operations : List (Operation K V)}
    {outcomes : List (Outcome V)} (hru : I.run store operations = some (store', outcomes))
    (ho : store[handle]? = some object)
    (ht : ∀ operation ∈ operations, target operation ≠ some handle) :
    store'[handle]? = some object := by
  induction operations generalizing store outcomes with
  | nil =>
    cases hru
    exact ho
  | cons operation operations ih =>
    obtain ⟨hh, hl⟩ := List.forall_mem_cons.mp ht
    obtain ⟨⟨middle, outcome⟩, hs, hr⟩ := bind_eq_some_iff.mp hru
    obtain ⟨⟨last, later⟩, hru', heq⟩ := map_eq_some_iff.mp hr
    cases heq
    exact ih hru' (getElem?_step hs ho hh) hl

end Interface

end Store

/-! ## The code's objects -/

section Objects

variable {K V : Type*} [LinearOrder K] [Inhabited K]

inductive Object (K V : Type*) [LinearOrder K] [Inhabited K]
  | list (list : ValueList V)
  | map (map : ValueMap K V)
  | listBuilder (builder : ValueListBuilder V)
  | mapBuilder (builder : ValueMapBuilder K V)

def settle {A O : Type*} (wrap : A → O) (old : A) : Except CollectionError A → O × Outcome V
  | .ok new => (wrap new, .ok none)
  | .error e => (wrap old, .error e)

def settlePrevious {A O : Type*} (wrap : A → O) (old : A) :
    Except CollectionError (A × Option V) → O × Outcome V
  | .ok (new, previous) => (wrap new, .ok previous)
  | .error e => (wrap old, .error e)

namespace Object

def create : Source K V → Object K V
  | .list => .list .new
  | .map => .map .new
  | .listBuilder => .listBuilder .new
  | .mapBuilder => .mapBuilder .new
  | .values values => .list (.ofValues values)
  | .entries entries => .map (.ofEntries entries)

def clone : Object K V → Option (Object K V)
  | .list l => some (.list l)
  | .map m => some (.map m)
  | .listBuilder _ | .mapBuilder _ => none

def update : Object K V → Update K V → Option (Object K V × Outcome V)
  | .list l, .push value => some (settle .list l (l.push value))
  | .list l, .removePrefix count => some (settle .list l (l.removePrefix count))
  | .list l, .set index value => some (settlePrevious .list l (.ok (l.set index value)))
  | .map m, .insert key value => some (settlePrevious .map m (m.insert key value))
  | .map m, .remove key => some (settlePrevious .map m (.ok (m.remove key)))
  | .listBuilder builder, .push value => some (settle .listBuilder builder (builder.push value))
  | .listBuilder builder, .finish => some (.list builder.finish, .ok none)
  | .mapBuilder builder, .append key value =>
    some (settle .mapBuilder builder (builder.append key value))
  | .mapBuilder builder, .finish => some (.map builder.finish, .ok none)
  | _, _ => none

def concat : Object K V → Object K V → Option (Except CollectionError (Object K V))
  | .list left, .list right => some ((left.concat right).map .list)
  | _, _ => none

def interface : Interface K V (Object K V) := ⟨create, clone, update, concat⟩

end Object

/-! ## Lists and ordered maps -/

inductive Model (K V : Type*)
  | list (values : List V)
  | map (entries : List (K × V))
  | listBuilder (values : List V)
  | mapBuilder (entries : List (K × V))
  deriving DecidableEq

namespace Model

open OrderedAssoc

def bounded {A : Type*} (length : Nat) (result : A) : Except CollectionError A :=
  if Word.u64Max < length then .error .lengthOverflow else .ok result

def create : Source K V → Model K V
  | .list => .list []
  | .map => .map []
  | .listBuilder => .listBuilder []
  | .mapBuilder => .mapBuilder []
  | .values values => .list values
  | .entries entries => .map (ofEntries entries)

def clone : Model K V → Option (Model K V)
  | .list values => some (.list values)
  | .map entries => some (.map entries)
  | .listBuilder _ | .mapBuilder _ => none

def update : Model K V → Update K V → Option (Model K V × Outcome V)
  | .list values, .push value =>
    some (settle .list values (bounded (values.length + 1) (values ++ [value])))
  | .list values, .removePrefix count =>
    some (settle .list values
      (if values.length < count then .error .prefixOutOfBounds else .ok (values.drop count)))
  | .list values, .set index value => some (.list (values.set index value), .ok values[index]?)
  | .map entries, .insert key value =>
    some (settlePrevious .map entries
      (if lookup entries key = none ∧ Word.u64Max < entries.length + 1 then .error .lengthOverflow
        else .ok (insert entries key value, lookup entries key)))
  | .map entries, .remove key => some (.map (erase entries key), .ok (lookup entries key))
  | .listBuilder values, .push value =>
    some (settle .listBuilder values (bounded (values.length + 1) (values ++ [value])))
  | .listBuilder values, .finish => some (.list values, .ok none)
  | .mapBuilder entries, .append key value =>
    some (settle .mapBuilder entries
      (if ∃ entry ∈ entries, key ≤ entry.1 then .error .keyOrder
        else bounded (entries.length + 1) (insert entries key value)))
  | .mapBuilder entries, .finish => some (.map entries, .ok none)
  | _, _ => none

def concat : Model K V → Model K V → Option (Except CollectionError (Model K V))
  | .list left, .list right =>
    some ((bounded (left.length + right.length) (left ++ right)).map .list)
  | _, _ => none

def interface : Interface K V (Model K V) := ⟨create, clone, update, concat⟩

end Model

def Object.model : Object K V → Model K V
  | .list l => .list l.members
  | .map m => .map m.members
  | .listBuilder builder => .listBuilder builder.members
  | .mapBuilder builder => .mapBuilder builder.members

/-! ## Refinement -/

section

variable {A B : Type*} (wrap : A → Object K V) (wrap' : B → Model K V) {f : A → B}

theorem model_settle (h : ∀ a, (wrap a).model = wrap' (f a)) (old : A)
    {r : Except CollectionError A} {r' : Except CollectionError B} (hr : r.map f = r') :
    Prod.map Object.model id (settle (V := V) wrap old r) = settle wrap' (f old) r' := by
  subst hr
  cases r with
  | error e => exact congrArg (·, _) (h old)
  | ok new => exact congrArg (·, _) (h new)

theorem model_settlePrevious (h : ∀ a, (wrap a).model = wrap' (f a)) (old : A)
    {r : Except CollectionError (A × Option V)} {r' : Except CollectionError (B × Option V)}
    (hr : r.map (fun r => (f r.1, r.2)) = r') :
    Prod.map Object.model id (settlePrevious wrap old r) = settlePrevious wrap' (f old) r' := by
  subst hr
  cases r with
  | error e => exact congrArg (·, _) (h old)
  | ok new => exact congrArg (·, _) (h new.1)

end

namespace Object

theorem model_update (object : Object K V) (change : Update K V) :
    (object.update change).map (Prod.map model id) = object.model.update change := by
  cases object with
  | list l =>
    cases change with
    | push value =>
      exact congrArg some (model_settle .list .list (fun _ => rfl) l (l.members_push value))
    | removePrefix count =>
      exact congrArg some (model_settle .list .list (fun _ => rfl) l (l.members_removePrefix count))
    | set index value =>
      obtain ⟨hm, hv⟩ := l.members_set index value
      exact congrArg some (Prod.ext (congrArg Model.list hm) (congrArg Except.ok hv))
    | insert _ _ | remove _ | append _ _ | finish => rfl
  | map m =>
    cases change with
    | insert key value =>
      exact congrArg some
        (model_settlePrevious .map .map (fun _ => rfl) m (m.members_insert key value))
    | remove key =>
      obtain ⟨hm, hv⟩ := m.members_remove key
      exact congrArg some (Prod.ext (congrArg Model.map hm) (congrArg Except.ok hv))
    | push _ | removePrefix _ | set _ _ | append _ _ | finish => rfl
  | listBuilder b =>
    cases change with
    | push value =>
      exact congrArg some
        (model_settle .listBuilder .listBuilder (fun _ => rfl) b (b.members_push value))
    | finish => exact congrArg some (Prod.ext (congrArg Model.list b.members_finish) rfl)
    | removePrefix _ | set _ _ | insert _ _ | remove _ | append _ _ => rfl
  | mapBuilder b =>
    cases change with
    | append key value =>
      exact congrArg some
        (model_settle .mapBuilder .mapBuilder (fun _ => rfl) b (b.members_append key value))
    | finish => exact congrArg some (Prod.ext (congrArg Model.map b.members_finish) rfl)
    | push _ | removePrefix _ | set _ _ | insert _ _ | remove _ => rfl

theorem model_concat (left right : Object K V) :
    (left.concat right).map (Except.map model) = left.model.concat right.model := by
  cases left with
  | list l =>
    cases right with
    | list r =>
      have hc := l.members_concat r
      refine congrArg some ?_
      change Except.map model (Except.map Object.list (l.concat r)) =
        Except.map Model.list (Model.bounded _ (l.members ++ r.members))
      rw [Model.bounded, ← hc]
      cases l.concat r <;> rfl
    | map _ | listBuilder _ | mapBuilder _ => rfl
  | map _ | listBuilder _ | mapBuilder _ => rfl

theorem hom : Interface.Hom Object.interface Model.interface (model : Object K V → Model K V) where
  create source := by
    cases source with
    | values values => exact congrArg Model.list (collect_spec _ values).2
    | entries entries => exact congrArg Model.map (collect_spec MapIndex.summarize _).2
    | list | map | listBuilder | mapBuilder => rfl
  clone object := by cases object <;> rfl
  update := model_update
  concat := model_concat

/-! ### Observations -/

def Agrees : Object K V → Prop
  | .list l => l.len = l.members.length ∧ l.isEmpty = l.members.isEmpty ∧
      (∀ index, l.get index = l.members[index]?) ∧ Members.Yields l.iter l.members
  | .map m => m.len = m.members.length ∧ m.isEmpty = m.members.isEmpty ∧
      (∀ key, m.get key = OrderedAssoc.lookup m.members key) ∧
      (∀ index, m.getIndex index = m.members[index]?) ∧ Members.Yields m.iter m.members ∧
      OrderedAssoc.Sorted m.members
  | .listBuilder b => b.len = b.members.length
  | .mapBuilder b => b.len = b.members.length ∧ b.lastKey = b.members.getLast?.map Prod.fst

theorem agrees (object : Object K V) : object.Agrees := by
  cases object with
  | list l =>
    refine ⟨l.len_eq, ?_, l.get_eq, l.yields_iter⟩
    rw [Bool.eq_iff_iff, l.isEmpty_iff, List.isEmpty_iff]
  | map m =>
    refine ⟨m.len_eq, ?_, m.get_eq, m.getIndex_eq, m.yields_iter, m.sorted⟩
    rw [Bool.eq_iff_iff, m.isEmpty_iff, List.isEmpty_iff]
  | listBuilder b => exact b.len_eq
  | mapBuilder b => exact ⟨b.len_eq, b.lastKey_eq⟩

def Greatest (t : Index (K × V) K) : Prop :=
  (∃ value, (t.summary, value) ∈ t.members) ∧ ∀ entry ∈ t.members, entry.1 ≤ t.summary

def WellIndexed : Object K V → Prop
  | .list l => ∀ root ∈ l.root, ∀ t ∈ root.nodes, t.Sound
  | .map m => ∀ root ∈ m.root, ∀ t ∈ root.nodes, t.Sound ∧ Greatest t
  | .listBuilder b => ∀ root ∈ b.assembly.forest.trees, ∀ t ∈ root.nodes, t.Sound
  | .mapBuilder b => ∀ root ∈ b.assembly.forest.trees, ∀ t ∈ root.nodes, t.Sound ∧ Greatest t

theorem greatest_nodes {root t : Index (K × V) K} (hb : MapIndex.Balanced root)
    (hs : OrderedAssoc.Sorted root.members) (ht : t ∈ root.nodes) : Greatest t := by
  have hba : MapIndex.Balanced t := hb.of_mem_nodes ht
  refine ⟨?_, MapIndex.le_summary hba (hs.sublist (Index.members_sublist ht))⟩
  obtain ⟨front, value, hlast⟩ := MapIndex.exists_last hba
  refine ⟨value, ?_⟩
  rw [hlast]
  exact List.mem_append_right _ List.mem_cons_self

theorem wellIndexed (object : Object K V) : object.WellIndexed := by
  cases object with
  | list l => exact fun root hr t ht => ((l.balanced root hr).of_mem_nodes ht).sound
  | map m =>
    intro root hr t ht
    exact ⟨((m.balanced root hr).of_mem_nodes ht).sound,
      greatest_nodes (m.balanced root hr) (m.sorted_root hr) ht⟩
  | listBuilder b =>
    exact fun root hr t ht => ((b.sound.forest root hr).of_mem_nodes ht).sound
  | mapBuilder b =>
    intro root hr t ht
    have hs : OrderedAssoc.Sorted root.members :=
      List.Pairwise.sublist (b.assembly.members_sublist hr) b.sorted
    exact ⟨((b.sound.forest root hr).of_mem_nodes ht).sound,
      greatest_nodes (b.sound.forest root hr) hs ht⟩

end Object

end Objects

open Object in
/-- Any program over shared collections runs as it does over lists and ordered maps. -/
theorem collections_refine_lists_and_maps {V : Type*} (operations : List (Operation Key V)) :
    (Object.interface.run [] operations).map (Prod.map (List.map model) id) =
      Model.interface.run [] operations ∧
    ∀ store outcomes, Object.interface.run [] operations = some (store, outcomes) →
      (∀ object ∈ store, object.Agrees ∧ object.WellIndexed) ∧
      ∀ later store' outcomes', Object.interface.run store later = some (store', outcomes') →
        ∀ handle object, store[handle]? = some object →
          (∀ operation ∈ later, Interface.target operation ≠ some handle) →
          store'[handle]? = some object := by
  refine ⟨hom.run [] operations, fun store outcomes _ => ⟨?_, ?_⟩⟩
  · exact fun object _ => ⟨object.agrees, object.wellIndexed⟩
  · intro later store' outcomes' hlater handle object hobject htarget
    exact Interface.getElem?_run hlater hobject htarget

def sharedProgram : List (Operation Key Nat) :=
  [.create (.entries [(⟨['b']⟩, 2), (⟨['a']⟩, 1)]), .clone 0, .update 0 (.insert ⟨['b']⟩ 7),
    .update 0 (.remove ⟨['a']⟩), .create (.values [5, 6]), .update 2 (.set 1 9)]

theorem collections_refine_lists_and_maps_shared : ∃ store, Object.interface.run [] sharedProgram =
        some (store, [.ok none, .ok none, .ok (some 2), .ok (some 1), .ok none, .ok (some 6)]) ∧
      store.map Object.model =
        [.map [(⟨['b']⟩, 7)], .map [(⟨['a']⟩, 1), (⟨['b']⟩, 2)], .list [5, 9]] := by
  obtain ⟨heq, -⟩ := collections_refine_lists_and_maps sharedProgram
  obtain ⟨⟨store, outcomes⟩, hrun, hmodel⟩ := map_eq_some_iff.mp
    (heq.trans (show Model.interface.run [] sharedProgram = some
      ([.map [(⟨['b']⟩, 7)], .map [(⟨['a']⟩, 1), (⟨['b']⟩, 2)], .list [5, 9]],
        [.ok none, .ok none, .ok (some 2), .ok (some 1), .ok none, .ok (some 6)]) from rfl))
  obtain ⟨hstore, rfl⟩ := Prod.mk.inj hmodel
  exact ⟨store, hrun, hstore⟩

end Xolotl.Types
