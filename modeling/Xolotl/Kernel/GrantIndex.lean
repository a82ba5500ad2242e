import Xolotl.Lib.Fallible
import Xolotl.Types.Grant

/-! The grants of the kernel's registry with their selector indexes. A holder of few grants is
scanned; for one of many grants the exact selectors are found by the target itself, and only the
others are scanned. -/

namespace Xolotl.Kernel

open Xolotl.Types List

/-! ## Lists of ids by key

A key without an entry has no ids; an emptied entry is removed. -/

section

variable {K R : Type} [DecidableEq K]

def pushIndexedId (index : K → List Nat) (key : K) (id : Nat) : K → List Nat :=
  Function.update index key (index key ++ [id])

def removeIndexedId (index : K → List Nat) (key : K) (id : Nat) : K → List Nat :=
  Function.update index key ((index key).filter fun candidate => candidate ≠ id)

/-- The index lists every row that has a key under its key, and nothing else. -/
def Lists (keyOf : R → Option K) (rows : Nat → Option R) (index : K → List Nat) : Prop :=
  ∀ k id, id ∈ index k ↔ ∃ row, rows id = some row ∧ keyOf row = some k

def reindex (keyOf : R → Option K) (old : Option R) (row : R) (id : Nat) (index : K → List Nat) :
    K → List Nat :=
  let index := (old.bind keyOf).elim index fun key => removeIndexedId index key id
  (keyOf row).elim index fun key => pushIndexedId index key id

variable {index : K → List Nat} {key k : K} {id x : Nat}

theorem mem_pushIndexedId :
    x ∈ pushIndexedId index key id k ↔ x ∈ index k ∨ (k = key ∧ x = id) := by
  rw [pushIndexedId]
  by_cases hk : k = key
  · simp [hk]
  · simp [hk]

theorem mem_removeIndexedId :
    x ∈ removeIndexedId index key id k ↔ x ∈ index k ∧ ¬ (k = key ∧ x = id) := by
  rw [removeIndexedId]
  by_cases hk : k = key
  · simp [hk]
  · simp [hk]

theorem Lists.reindex {keyOf : R → Option K} {rows : Nat → Option R} (h : Lists keyOf rows index)
    (id : Nat) (row : R) :
    Lists keyOf (Function.update rows id (some row)) (reindex keyOf (rows id) row id index) := by
  intro k x
  have hr : x ∈ ((rows id).bind keyOf).elim index (fun key => removeIndexedId index key id) k ↔
      x ∈ index k ∧ x ≠ id := by
    have hl : x ∈ index k → x = id → (rows id).bind keyOf = some k := by
      rintro hx rfl
      obtain ⟨row, hro, hk⟩ := (h k x).mp hx
      rw [hro, Option.bind_some, hk]
    cases hold : (rows id).bind keyOf with
    | none =>
      rw [hold] at hl
      simpa using hl
    | some key =>
      rw [hold] at hl
      rw [Option.elim_some, mem_removeIndexedId]
      refine and_congr_right fun hx => not_congr (and_iff_right_of_imp fun hid => ?_)
      exact (Option.some.inj (hl hx hid)).symm
  have hn : x ∈ Kernel.reindex keyOf (rows id) row id index k ↔
      (x ∈ index k ∧ x ≠ id) ∨ (keyOf row = some k ∧ x = id) := by
    rw [← hr, Kernel.reindex]
    cases keyOf row with
    | none => simp
    | some key => simp [mem_pushIndexedId, eq_comm]
  rw [hn, h k x]
  by_cases hx : x = id
  · simp [hx]
  · simp [hx]

end

/-! ## The registry -/

structure GrantSelectorKey where
  holder : Nat
  verb : Text
  path : Path
  deriving DecidableEq

structure RegistryInner where
  grants : Nat → Option Grant := fun _ => none
  grantsByHolder : Nat → List Nat := fun _ => []
  exactGrants : GrantSelectorKey → List Nat := fun _ => []
  wildcardGrantsByHolder : Nat → List Nat := fun _ => []

def selectorPath (pattern : Capability) : Except PathError Path := do
  let path ← Path.tryNew pattern.scheme
  let path ← pattern.cluster.elim (.ok path) path.tryWithCluster
  pattern.segments.foldlM Path.tryPush path

/-- A wildcard, or a pattern that no path spells, has no key. -/
def exactSelectorKey (grant : Grant) : Option GrantSelectorKey :=
  let pattern := grant.selector.pattern
  if pattern.verb == "*" || pattern.cluster == some ("*" : Text) ||
      isWildcardScheme pattern.scheme || pattern.segments.any isWildcardSegment then none
  else match selectorPath pattern with
    | .ok path => some { holder := grant.holder, verb := pattern.verb, path }
    | .error _ => none

def targetSelectorKey (process : Nat) (verb : Text) (target : Path) : GrantSelectorKey where
  holder := process
  verb := verb
  path := target

namespace RegistryInner

variable (inner : RegistryInner)

def indexGrant (id : Nat) (grant : Grant) : RegistryInner :=
  let inner := { inner with grantsByHolder := pushIndexedId inner.grantsByHolder grant.holder id }
  match exactSelectorKey grant with
  | some key => { inner with exactGrants := pushIndexedId inner.exactGrants key id }
  | none => { inner with
      wildcardGrantsByHolder := pushIndexedId inner.wildcardGrantsByHolder grant.holder id }

def unindexGrant (id : Nat) (grant : Grant) : RegistryInner :=
  let inner := { inner with grantsByHolder := removeIndexedId inner.grantsByHolder grant.holder id }
  match exactSelectorKey grant with
  | some key => { inner with exactGrants := removeIndexedId inner.exactGrants key id }
  | none => { inner with
      wildcardGrantsByHolder := removeIndexedId inner.wildcardGrantsByHolder grant.holder id }

def registerGrant (grant : Grant) : RegistryInner :=
  let old := inner.grants grant.id
  let inner := { inner with grants := Function.update inner.grants grant.id none }
  let inner := old.elim inner fun old => inner.unindexGrant grant.id old
  let inner := inner.indexGrant grant.id grant
  { inner with grants := Function.update inner.grants grant.id (some grant) }

def smallHolderGrantScanLimit : Nat := 8

def visitCandidateGrants (process : Nat) (verb : Text) (target : Path) : List Grant :=
  let holderIds := inner.grantsByHolder process
  if holderIds.length ≤ smallHolderGrantScanLimit then holderIds.filterMap inner.grants
  else (inner.exactGrants (targetSelectorKey process verb target) ++
    inner.wildcardGrantsByHolder process).filterMap inner.grants

/-! ## The indexes list the registered grants -/

/-- The key of a grant that only a scan of its holder's wildcards finds. -/
def wildcardHolder (grant : Grant) : Option Nat :=
  (exactSelectorKey grant).elim (some grant.holder) fun _ => none

structure Indexed (inner : RegistryInner) : Prop where
  holder : Lists (fun grant => some grant.holder) inner.grants inner.grantsByHolder
  exact : Lists exactSelectorKey inner.grants inner.exactGrants
  wildcard : Lists wildcardHolder inner.grants inner.wildcardGrantsByHolder

variable {inner : RegistryInner} {grant : Grant} {verb : Text} {target : Path}

theorem registerGrant_eq (inner : RegistryInner) (grant : Grant) :
    let old := inner.grants grant.id
    inner.registerGrant grant =
      { grants := Function.update inner.grants grant.id (some grant)
        grantsByHolder :=
          reindex (fun grant => some grant.holder) old grant grant.id inner.grantsByHolder
        exactGrants := reindex exactSelectorKey old grant grant.id inner.exactGrants
        wildcardGrantsByHolder :=
          reindex wildcardHolder old grant grant.id inner.wildcardGrantsByHolder } := by
  unfold registerGrant indexGrant unindexGrant reindex wildcardHolder
  cases inner.grants grant.id with
  | none => cases exactSelectorKey grant <;> simp
  | some old => cases hold : exactSelectorKey old <;> cases exactSelectorKey grant <;> simp [hold]

theorem Indexed.registerGrant (h : Indexed inner) (grant : Grant) :
    Indexed (inner.registerGrant grant) := by
  rw [registerGrant_eq]
  exact ⟨h.holder.reindex grant.id grant, h.exact.reindex grant.id grant,
    h.wildcard.reindex grant.id grant⟩

theorem indexed_foldl (calls : List Grant) :
    let inner : RegistryInner := calls.foldl RegistryInner.registerGrant {}
    Indexed inner ∧ ∀ id, inner.grants id = calls.reverse.find? fun call => call.id == id := by
  induction calls using List.reverseRecOn with
  | nil =>
    refine ⟨⟨?_, ?_, ?_⟩, fun _ => rfl⟩
    all_goals exact fun k id => iff_of_false not_mem_nil nofun
  | append_singleton calls grant ih =>
    obtain ⟨hi, hg⟩ := ih
    rw [foldl_concat, reverse_concat]
    refine ⟨hi.registerGrant grant, fun id => ?_⟩
    simp only [registerGrant_eq, Function.update_apply]
    rw [hg, List.find?_cons]
    by_cases hid : id = grant.id
    · simp [hid]
    · rw [if_neg hid, beq_false_of_ne (Ne.symm hid)]

/-! ## Exact selectors match one target -/

theorem eq_of_matchSegments {pat seg : List Text} (hp : pat.any isWildcardSegment = false)
    (h : matchSegments pat seg = true) : pat = seg := by
  rw [matchSegments_iff] at h
  induction h with
  | nil => rfl
  | skip hs | absorb hs => simp [isWildcardSegment, isGlobstar_iff.mp hs] at hp
  | single hs hc _ ih =>
    simp only [any_cons, Bool.or_eq_false_iff, isWildcardSegment, segmentCovers,
      beq_eq_false_iff_ne, Bool.or_eq_true, beq_iff_eq] at hp hc
    rw [hc.resolve_left hp.1.1, ih (by simpa using hp.2)]

theorem foldlM_tryPush_ok {segments : List Text} {path path' : Path}
    (h : segments.foldlM Path.tryPush path = .ok path') :
    path'.cluster = path.cluster ∧ path'.scheme = path.scheme ∧
      path'.segments = path.segments ++ segments := by
  induction segments generalizing path with
  | nil =>
    cases h
    simp
  | cons segment segments ih =>
    rw [foldlM_cons, Fallible.bind_ok] at h
    obtain ⟨next, hn, h⟩ := h
    unfold Path.tryPush at hn
    split at hn
    · cases hn
    · cases hn
      simpa using ih h

theorem selectorPath_ok {pattern : Capability} {path : Path} (h : selectorPath pattern = .ok path) :
    path.cluster = pattern.cluster ∧ path.scheme = pattern.scheme ∧
      path.segments = pattern.segments := by
  simp only [selectorPath, Fallible.bind_ok] at h
  obtain ⟨root, hr, base, hb, h⟩ := h
  obtain ⟨hc, hsc, hs⟩ := foldlM_tryPush_ok h
  unfold Path.tryNew at hr
  split_ifs at hr
  cases hr
  cases hp : pattern.cluster with
  | none =>
    rw [hp] at hb
    cases hb
    exact ⟨hc, hsc, hs⟩
  | some cluster =>
    rw [hp, Option.elim_some, Path.tryWithCluster] at hb
    split at hb
    · cases hb
    · cases hb
      exact ⟨hc, hsc, hs⟩

theorem exactSelectorKey_eq {key : GrantSelectorKey} (hk : exactSelectorKey grant = some key)
    (h : grant.selector.pattern.coversPath verb target = true) :
    key = targetSelectorKey grant.holder verb target := by
  simp only [exactSelectorKey] at hk
  generalize grant.selector.pattern = pattern at hk h
  split at hk
  · cases hk
  next hpl =>
  split at hk
  swap
  · cases hk
  next path hph =>
  cases hk
  obtain ⟨hpr, hpe, hpa⟩ := selectorPath_ok hph
  simp only [Bool.or_eq_true, not_or, beq_iff_eq, Bool.not_eq_true] at hpl
  obtain ⟨⟨⟨hv, hcl⟩, hsh⟩, hs⟩ := hpl
  have hr : pattern.isGlobalRoot = false :=
    Bool.eq_false_iff.mpr fun hr => hv (Capability.isGlobalRoot_iff.mp hr).2.1
  simp only [Capability.coversPath, Capability.clusterCoversPath, hsh, Bool.false_or,
    Bool.and_eq_true, Bool.or_eq_true, beq_iff_eq, hv, false_or] at h
  obtain ⟨⟨⟨hse, rfl⟩, hsc⟩, hm⟩ := h
  have hc : pattern.cluster = target.cluster := by
    cases hp : pattern.cluster <;> cases ht : target.cluster <;>
      simp_all [Capability.clusterSelects]
  have htg : path = target := by
    ext1
    · rw [hpr, hc]
    · rw [hpe, hsc]
    · rw [hpa, eq_of_matchSegments hs hm]
  rw [htg, targetSelectorKey]

/-! ## Visits are complete -/

theorem Indexed.mem_visitCandidateGrants (h : Indexed inner) {process : Nat}
    (hc : grant.selector.pattern.coversPath verb target = true) :
    grant ∈ inner.visitCandidateGrants process verb target ↔
      (∃ id, inner.grants id = some grant) ∧ grant.holder = process := by
  have hl : ∀ ids : List Nat,
      (∀ id, inner.grants id = some grant → (id ∈ ids ↔ grant.holder = process)) →
      (grant ∈ ids.filterMap inner.grants ↔
        (∃ id, inner.grants id = some grant) ∧ grant.holder = process) := by
    intro ids hi
    rw [mem_filterMap]
    constructor
    · rintro ⟨id, hm, hid⟩
      exact ⟨⟨id, hid⟩, (hi id hid).mp hm⟩
    · rintro ⟨⟨id, hid⟩, hh⟩
      exact ⟨id, (hi id hid).mpr hh, hid⟩
  unfold RegistryInner.visitCandidateGrants
  dsimp only
  split
  · refine hl _ fun id hid => ?_
    rw [h.holder process id, hid]
    simp
  · refine hl _ fun id hid => ?_
    rw [mem_append, h.exact, h.wildcard, hid]
    -- a matching grant is listed under the target if its selector is exact
    cases hk : exactSelectorKey grant with
    | none => simp [hk, wildcardHolder]
    | some key =>
      rw [exactSelectorKey_eq hk hc] at hk
      simp [hk, wildcardHolder, targetSelectorKey]

/-- However many grants a process holds, the matching ones among those that a visit shows are the
matching ones it holds: those registered last under their id. -/
theorem visitCandidateGrants_misses_nothing (calls : List Grant) (process : Nat) (verb : Text)
    (target : Path) (grant : Grant) :
    let inner : RegistryInner := calls.foldl RegistryInner.registerGrant {}
    (grant ∈ inner.visitCandidateGrants process verb target ∧
        grant.selector.matches verb target = true) ↔
      (calls.reverse.find? (fun call => call.id == grant.id) = some grant ∧
        grant.holder = process ∧ grant.selector.matches verb target = true) := by
  intro inner
  obtain ⟨hindexed, hget⟩ := indexed_foldl calls
  rw [← and_assoc, and_congr_left_iff]
  intro hmatches
  rw [hindexed.mem_visitCandidateGrants (Bool.and_eq_true_iff.mp hmatches).2]
  refine and_congr_left' ⟨?_, fun h => ⟨grant.id, (hget _).trans h⟩⟩
  rintro ⟨id, hid⟩
  rw [hget] at hid
  obtain rfl : grant.id = id := by simpa using List.find?_some hid
  exact hid

end RegistryInner

end Xolotl.Kernel
