import Xolotl.Kernel.GrantIndex
import Xolotl.Types.CapabilityText

/-! Request delegation: every grant of an authority anchor that covers a requested template becomes
one planned grant, which carries the conditions of its parent. -/

namespace Xolotl.Kernel

open Xolotl.Types Fallible List Capability

inductive BootstrapError
  | capabilityCeiling (literal : Text)
  | requestGrantLimit (limit : Nat)
  deriving DecidableEq

structure RequestGrantView where
  selector : ResourceSelector
  rights : Option GrantRights

structure PlannedRequestGrant where
  selector : ResourceSelector
  rights : GrantRights
  constraints : ConstraintSet
  expires : Expiry
  deriving DecidableEq

/-! ## The order of planned grants -/

def compareRequestSelectors (selector : ResourceSelector) :
    Text ×ₗ WithBot Text ×ₗ Text ×ₗ List Text ×ₗ WithBot Text ×ₗ WithBot Predicate :=
  toLex (selector.pattern.verb, toLex (selector.pattern.cluster, toLex (selector.pattern.scheme,
    toLex (selector.pattern.segments,
      toLex (selector.pattern.method, selector.pattern.predicate)))))

def methodsKey : GrantMethods → Nat ×ₗ List Text
  | .none => toLex (0, [])
  | .all => toLex (1, [])
  | .names list _ => toLex (2, list)

def expiryKey : Expiry → WithBot Int
  | .never => ⊥
  | .at_ millis => millis.toInt

def comparePlannedGrants (planned : PlannedRequestGrant) :
    (Text ×ₗ WithBot Text ×ₗ Text ×ₗ List Text ×ₗ WithBot Text ×ₗ WithBot Predicate) ×ₗ
      (Nat ×ₗ List Text) ×ₗ Nat ×ₗ List Predicate ×ₗ WithBot Int :=
  toLex (compareRequestSelectors planned.selector, toLex (methodsKey planned.rights.methods,
    toLex (planned.rights.flags.toNat, toLex (planned.constraints.predicates,
      expiryKey planned.expires))))

theorem methodsKey_injective : Function.Injective methodsKey := by
  intro a b h
  cases a <;> cases b <;>
    simp_all [methodsKey]

theorem expiryKey_injective : Function.Injective expiryKey := by
  intro a b h
  cases a <;> cases b <;> simp_all [expiryKey, Int64.toInt_inj]

theorem comparePlannedGrants_injective : Function.Injective comparePlannedGrants := by
  rintro ⟨⟨⟨verb, cluster, scheme, segments, method, predicate⟩⟩, ⟨methods, flags⟩, ⟨predicates⟩, e⟩
    ⟨⟨⟨verb', cluster', scheme', segments', method', predicate'⟩⟩, ⟨methods', flags'⟩,
      ⟨predicates'⟩, e'⟩ h
  simp only [comparePlannedGrants, EmbeddingLike.apply_eq_iff_eq, Prod.mk.injEq] at h
  obtain ⟨⟨rfl, rfl, rfl, rfl, rfl, rfl⟩, hm, hf, rfl, he⟩ := h
  obtain rfl := methodsKey_injective hm
  obtain rfl := UInt32.toNat_inj.mp hf
  obtain rfl := expiryKey_injective he
  rfl

instance : LinearOrder PlannedRequestGrant := .lift' _ comparePlannedGrants_injective

/-! ## Planning -/

/-- What the parent requires beyond the child's own predicate, sorted and without repeats. -/
def derivedGrantConstraints (parent : Grant) (childPredicate : Option Predicate) : ConstraintSet :=
  let predicates :=
    (parent.selector.pattern.predicate.filter fun predicate =>
      some predicate ≠ childPredicate).toList
      ++ parent.constraints.predicates.filter fun predicate => some predicate ≠ childPredicate
  ⟨predicates.toFinset.sort⟩

def derive (nowMillis : Int64) (view : RequestGrantView) (parent : Grant) :
    Option PlannedRequestGrant :=
  if parent.expires.isExpired nowMillis = true ∨
      parent.selector.pattern.coversCapPattern view.selector.pattern = false then none
  else
    let requested := view.rights.getD ⟨parent.rights.methods, 0⟩
    if requested.isEmpty = true ∨ requested.isSubsetOf parent.rights = false then none
    else some ⟨view.selector, requested,
      derivedGrantConstraints parent view.selector.pattern.predicate, parent.expires⟩

section Plan

variable (anchorGrants : List Grant) (nowMillis : Int64) (limit : Nat)

def planParents (view : RequestGrantView) : List Grant → Bool → Finset PlannedRequestGrant →
    Except BootstrapError (Bool × Finset PlannedRequestGrant)
  | [], covered, unique => .ok (covered, unique)
  | parent :: rest, covered, unique =>
    match derive nowMillis view parent with
    | none => planParents view rest covered unique
    | some planned =>
      if limit < (insert planned unique).card then .error (.requestGrantLimit limit)
      else planParents view rest true (insert planned unique)

def planViews : List RequestGrantView → Finset PlannedRequestGrant →
    Except BootstrapError (Finset PlannedRequestGrant)
  | [], unique => .ok unique
  | view :: rest, unique => do
    let (covered, unique) ← planParents nowMillis limit view anchorGrants false unique
    if covered then planViews rest unique
    else .error (.capabilityCeiling view.selector.pattern.text)

def planGrantsFromViews (grants : List RequestGrantView) :
    Except BootstrapError (List PlannedRequestGrant) :=
  (planViews anchorGrants nowMillis limit grants ∅).map Finset.sort

end Plan

def PlannedRequestGrant.attached (planned : PlannedRequestGrant) (id child : Nat) : Grant :=
  ⟨id, child, planned.selector, planned.rights, planned.constraints, planned.expires⟩

def RequestGrantView.authorizes (view : RequestGrantView) (rights : GrantRights) (verb : Text)
    (target : Path) (method : Text) (input : Value) (nowMillis : Int64) : Bool :=
  view.selector.matches verb target && view.selector.pattern.predicateHolds input nowMillis &&
    rights.methods.allows method

/-! ## What is planned -/

variable {anchorGrants : List Grant} {nowMillis : Int64} {limit : Nat} {view : RequestGrantView}
  {grants : List RequestGrantView} {unique unique' : Finset PlannedRequestGrant}
  {planned : PlannedRequestGrant} {parent : Grant}

def derived (anchorGrants : List Grant) (nowMillis : Int64) (view : RequestGrantView) :
    Finset PlannedRequestGrant :=
  (anchorGrants.filterMap (derive nowMillis view)).toFinset

def plannedSet (anchorGrants : List Grant) (nowMillis : Int64) (grants : List RequestGrantView) :
    Finset PlannedRequestGrant :=
  (grants.flatMap fun view => anchorGrants.filterMap (derive nowMillis view)).toFinset

theorem mem_plannedSet : planned ∈ plannedSet anchorGrants nowMillis grants ↔
    ∃ view ∈ grants, ∃ parent ∈ anchorGrants, derive nowMillis view parent = some planned := by
  simp only [plannedSet, mem_toFinset, mem_flatMap, mem_filterMap]

theorem planParents_ok_iff {covered covered' : Bool} (hu : unique.card ≤ limit) :
    planParents nowMillis limit view anchorGrants covered unique = .ok (covered', unique') ↔
      unique' = unique ∪ derived anchorGrants nowMillis view ∧ unique'.card ≤ limit ∧
        covered' = (covered ||
          anchorGrants.any fun parent => (derive nowMillis view parent).isSome) := by
  induction anchorGrants generalizing covered unique with
  | nil =>
    rw [planParents, derived, filterMap_nil, toFinset_nil, Finset.union_empty, any_nil,
      Bool.or_false, Except.ok.injEq, Prod.mk.injEq]
    constructor
    · rintro ⟨rfl, rfl⟩
      exact ⟨rfl, hu, rfl⟩
    · rintro ⟨rfl, -, rfl⟩
      exact ⟨rfl, rfl⟩
  | cons parent rest ih =>
    rw [planParents, any_cons]
    cases hd : derive nowMillis view parent with
    | none =>
      have hr : derived (parent :: rest) nowMillis view = derived rest nowMillis view := by
        rw [derived, filterMap_cons_none hd, derived]
      rw [hr]
      exact ih hu
    | some planned =>
      have hr : unique ∪ derived (parent :: rest) nowMillis view =
          insert planned unique ∪ derived rest nowMillis view := by
        rw [derived, filterMap_cons_some hd, toFinset_cons, Finset.union_insert,
          Finset.insert_union, derived]
      rw [hr, Option.isSome_some, Bool.true_or, Bool.or_true]
      dsimp only
      by_cases hl : limit < (insert planned unique).card
      · rw [if_pos hl]
        refine iff_of_false nofun ?_
        rintro ⟨rfl, hle, -⟩
        exact Nat.not_le_of_lt hl ((Finset.card_le_card Finset.subset_union_left).trans hle)
      · rw [if_neg hl, ih (Nat.le_of_not_lt hl), Bool.true_or]

theorem planViews_ok_iff (hu : unique.card ≤ limit) :
    planViews anchorGrants nowMillis limit grants unique = .ok unique' ↔
      unique' = unique ∪ plannedSet anchorGrants nowMillis grants ∧ unique'.card ≤ limit ∧
        ∀ view ∈ grants, ∃ parent ∈ anchorGrants, (derive nowMillis view parent).isSome = true := by
  induction grants generalizing unique with
  | nil =>
    rw [planViews, plannedSet, flatMap_nil, toFinset_nil, Finset.union_empty, Except.ok.injEq]
    constructor
    · rintro rfl
      exact ⟨rfl, hu, forall_mem_nil _⟩
    · exact fun h => h.1.symm
  | cons view rest ih =>
    have hco : unique ∪ plannedSet anchorGrants nowMillis (view :: rest) =
        unique ∪ derived anchorGrants nowMillis view ∪ plannedSet anchorGrants nowMillis rest := by
      rw [plannedSet, flatMap_cons, toFinset_append, Finset.union_assoc, derived, plannedSet]
    rw [planViews, hco, forall_mem_cons, ← any_eq_true]
    simp only [bind_ok]
    constructor
    · rintro ⟨⟨covered, unique₁⟩, hp, h⟩
      obtain ⟨rfl, hca, hc⟩ := (planParents_ok_iff hu).mp hp
      cases hcv : covered with
      | false =>
        rw [hcv] at h
        cases h
      | true =>
        rw [hcv] at h hc
        obtain ⟨hs, hle, hr⟩ := (ih hca).mp h
        exact ⟨hs, hle, hc.symm, hr⟩
    · rintro ⟨hs, hle, hc, hr⟩
      have hca : (unique ∪ derived anchorGrants nowMillis view).card ≤ limit := by
        refine (Finset.card_le_card ?_).trans hle
        rw [hs]
        exact Finset.subset_union_left
      refine ⟨(true, unique ∪ derived anchorGrants nowMillis view), ?_, (ih hca).mpr ⟨hs, hle, hr⟩⟩
      exact (planParents_ok_iff hu).mpr ⟨rfl, hca, hc.symm⟩

theorem planGrantsFromViews_ok_iff {plan : List PlannedRequestGrant} :
    planGrantsFromViews anchorGrants nowMillis limit grants = .ok plan ↔
      plan = (plannedSet anchorGrants nowMillis grants).sort ∧
        (plannedSet anchorGrants nowMillis grants).card ≤ limit ∧
        ∀ view ∈ grants, ∃ parent ∈ anchorGrants, (derive nowMillis view parent).isSome = true := by
  have he : (∅ : Finset PlannedRequestGrant).card ≤ limit := Nat.zero_le limit
  simp only [planGrantsFromViews, map_eq_ok, planViews_ok_iff he]
  constructor
  · rintro ⟨_, ⟨rfl, hc, hco⟩, rfl⟩
    exact ⟨rfl, hc, hco⟩
  · rintro ⟨rfl, hc, hco⟩
    exact ⟨_, ⟨rfl, hc, hco⟩, rfl⟩

def requested (view : RequestGrantView) (parent : Grant) : GrantRights :=
  view.rights.getD ⟨parent.rights.methods, 0⟩

theorem derive_eq_some : derive nowMillis view parent = some planned ↔
    (parent.expires.isExpired nowMillis = false ∧
      parent.selector.pattern.coversCapPattern view.selector.pattern = true) ∧
    ((requested view parent).isEmpty = false ∧
      (requested view parent).isSubsetOf parent.rights = true) ∧
    ⟨view.selector, requested view parent,
      derivedGrantConstraints parent view.selector.pattern.predicate, parent.expires⟩ =
        planned := by
  simp only [derive, requested, Option.ite_none_left_eq_some, not_or, Bool.not_eq_true,
    Bool.not_eq_false, Option.some.injEq]

variable {input : Value} {time : Int64} {verb method : Text} {target : Path}

theorem eval_derivedGrantConstraints {child : Option Predicate} :
    (derivedGrantConstraints parent child).eval input time = true ↔
      ∀ predicate, some predicate ≠ child →
        (parent.selector.pattern.predicate = some predicate ∨
          predicate ∈ parent.constraints.predicates) → predicate.eval input time = true := by
  simp only [derivedGrantConstraints, ConstraintSet.eval, all_eq_true, Finset.mem_sort,
    mem_toFinset, mem_append, Option.mem_toList, Option.filter_eq_some_iff, mem_filter,
    decide_eq_true_eq, ← or_and_right]
  exact ⟨fun h predicate hne hm => h predicate ⟨hm, hne⟩,
    fun h predicate hp => h predicate hp.2 hp.1⟩

theorem conditions_iff {selector : ResourceSelector} :
    (selector.pattern.predicateHolds input time = true ∧
      (derivedGrantConstraints parent selector.pattern.predicate).eval input time = true) ↔
    selector.pattern.predicateHolds input time = true ∧
      parent.selector.pattern.predicateHolds input time = true ∧
      parent.constraints.eval input time = true := by
  have hh : ∀ c : Capability, c.predicateHolds input time = true ↔
      ∀ predicate, c.predicate = some predicate → predicate.eval input time = true := by
    intro c
    unfold predicateHolds
    cases c.predicate <;> simp
  rw [eval_derivedGrantConstraints, hh, hh, ConstraintSet.eval, all_eq_true]
  refine and_congr_right fun ho => ⟨fun h => ⟨fun predicate hp => ?_, fun predicate hp => ?_⟩, ?_⟩
  -- a condition that is the template's own predicate holds anyway
  · by_cases hs : some predicate = selector.pattern.predicate
    · exact ho predicate hs.symm
    · exact h predicate hs (.inl hp)
  · by_cases hs : some predicate = selector.pattern.predicate
    · exact ho predicate hs.symm
    · exact h predicate hs (.inr hp)
  · rintro ⟨hpa, hc⟩ predicate - (hp | hp)
    · exact hpa predicate hp
    · exact hc predicate hp

theorem attached_authorizes (hd : derive nowMillis view parent = some planned) (id child : Nat) :
    (planned.attached id child).authorizes verb target method input time = true ↔
      view.authorizes (requested view parent) verb target method input time = true ∧
        parent.expires.isExpired time = false ∧
        parent.selector.pattern.predicateHolds input time = true ∧
        parent.constraints.eval input time = true := by
  obtain ⟨-, -, rfl⟩ := derive_eq_some.mp hd
  have hc := @conditions_iff parent input time view.selector
  simp only [Grant.authorizes, Grant.covers,
    RequestGrantView.authorizes, Bool.and_eq_true, Bool.not_eq_true']
  tauto

theorem authorizes_of_planned (hd : derive nowMillis view parent = some planned)
    (hr : view.selector.pattern.isGlobalRoot = false) {id child : Nat}
    (h : (planned.attached id child).authorizes verb target method input time = true) :
    parent.authorizes verb target method input time = true := by
  obtain ⟨⟨-, hco⟩, ⟨-, hs⟩, -⟩ := derive_eq_some.mp hd
  obtain ⟨hv, hl, hpr, hc⟩ := (attached_authorizes hd id child).mp h
  simp only [RequestGrantView.authorizes, ResourceSelector.matches, Bool.and_eq_true,
    Option.isNone_iff_eq_none] at hv
  obtain ⟨⟨⟨hmh, hpa⟩, -⟩, ha⟩ := hv
  rw [coversCapPattern, Bool.and_eq_true] at hco
  have hn : parent.selector.pattern.method.isNone = true := by
    have hm := hco.2
    rw [hmh] at hm
    cases hp : parent.selector.pattern.method with
    | none => rfl
    | some selected =>
      rw [hp] at hm
      cases hm
  have hpa' := coversPath_mono hco.1 (fun h => absurd (hr.symm.trans h) Bool.false_ne_true) hpa
  have hme := GrantMethods.allows_mono (Bool.and_eq_true_iff.mp hs).1 ha
  simp only [Grant.authorizes, Grant.covers, ResourceSelector.matches, hl, hn, hpa', hpr,
    hc, hme, Bool.not_false, Bool.and_self]

/-- Request delegation neither amplifies nor loses authority, and does not depend on the order of
the anchor's grants or of the templates. -/
theorem delegation_is_exact (anchorGrants : List Grant) (grants : List RequestGrantView)
    (nowMillis : Int64) (limit : Nat) (plan : List PlannedRequestGrant)
    (hplan : planGrantsFromViews anchorGrants nowMillis limit grants = .ok plan)
    (hroot : ∀ view ∈ grants, view.selector.pattern.isGlobalRoot = false) :
    (∀ planned ∈ plan, ∀ id child verb target method input time,
      (planned.attached id child).authorizes verb target method input time = true →
      ∃ parent ∈ anchorGrants, parent.authorizes verb target method input time = true) ∧
    (∀ view ∈ grants, ∀ rights, view.rights = some rights → ∀ parent ∈ anchorGrants,
      parent.expires.isExpired nowMillis = false →
      parent.selector.pattern.coversCapPattern view.selector.pattern = true →
      rights.isSubsetOf parent.rights = true → ∀ verb target method input time,
      view.authorizes rights verb target method input time = true →
      parent.authorizes verb target method input time = true →
      ∃ planned ∈ plan, ∀ id child,
        (planned.attached id child).authorizes verb target method input time = true) ∧
    ∀ anchorGrants' grants', anchorGrants'.Perm anchorGrants → grants'.Perm grants →
      planGrantsFromViews anchorGrants' nowMillis limit grants' = .ok plan := by
  obtain ⟨rfl, hcard, hcovered⟩ := planGrantsFromViews_ok_iff.mp hplan
  refine ⟨?_, ?_, ?_⟩
  · intro planned hplanned id child verb target method input time h
    rw [Finset.mem_sort, mem_plannedSet] at hplanned
    obtain ⟨view, hview, parent, hparent, hderive⟩ := hplanned
    exact ⟨parent, hparent, authorizes_of_planned hderive (hroot view hview) h⟩
  · intro view hview rights hrights parent hparent hlive hcovers hsubset verb target
      method input time
      htemplate hauthorized
    have hrequested : requested view parent = rights := by
      rw [requested, hrights]
      rfl
    have hempty : rights.isEmpty = false := by
      -- rights without methods would not have let the method be called
      simp only [RequestGrantView.authorizes, Bool.and_eq_true] at htemplate
      cases hmethods : rights.methods with
      | none =>
        rw [hmethods] at htemplate
        cases htemplate.2
      | _ => simp [GrantRights.isEmpty, GrantMethods.isEmpty, hmethods]
    have hderive : derive nowMillis view parent = some _ := derive_eq_some.mpr
      ⟨⟨hlive, hcovers⟩, ⟨hrequested ▸ hempty, hrequested ▸ hsubset⟩, rfl⟩
    refine ⟨_, (Finset.mem_sort _).mpr (mem_plannedSet.mpr ⟨view, hview, parent, hparent, hderive⟩),
      fun id child => (attached_authorizes hderive id child).mpr ⟨hrequested ▸ htemplate, ?_⟩⟩
    simp only [Grant.authorizes, Grant.covers, Bool.and_eq_true, Bool.not_eq_true'] at hauthorized
    exact ⟨hauthorized.1.1.1.1, hauthorized.1.1.2, hauthorized.1.2⟩
  · intro anchorGrants' grants' hanchors hgrants
    have hsame : plannedSet anchorGrants' nowMillis grants' =
        plannedSet anchorGrants nowMillis grants := by
      ext planned
      simp only [mem_plannedSet, hanchors.mem_iff, hgrants.mem_iff]
    refine planGrantsFromViews_ok_iff.mpr ⟨by rw [hsame], by rwa [hsame], fun view hview => ?_⟩
    obtain ⟨parent, hparent, h⟩ := hcovered view (hgrants.mem_iff.mp hview)
    exact ⟨parent, hanchors.mem_iff.mpr hparent, h⟩

def readGrant (id holder : Nat) (segments : List Text) (expires : Expiry) : Grant :=
  ⟨id, holder, ⟨⟨"read", none, "state", segments, none, none⟩⟩, ⟨.all, 0⟩, ⟨[]⟩, expires⟩

def readEntry : RequestGrantView := ⟨⟨⟨"read", none, "state", ["a"], none, none⟩⟩, some ⟨.all, 0⟩⟩

def entryPath : Path := ⟨none, "state", ["a"], Path.valid_state, Path.valid_none, by decide⟩

def plannedEntry (expires : Expiry) : PlannedRequestGrant :=
  ⟨readEntry.selector, ⟨.all, 0⟩, ⟨[]⟩, expires⟩

def stateGrants : List Grant := [readGrant 1 1 ["**"] .never, readGrant 2 1 ["**"] (.at_ 10)]

def entryPlans : Finset PlannedRequestGrant := {plannedEntry .never, plannedEntry (.at_ 10)}

theorem derive_readEntry {id holder : Nat} {segments : List Text} {expires : Expiry}
    (hs : patternSubsumesSegments segments ["a"] = true) (he : expires.isExpired 0 = false) :
    derive 0 readEntry (readGrant id holder segments expires) = some (plannedEntry expires) := by
  have hc : derivedGrantConstraints (readGrant id holder segments expires) none = ⟨[]⟩ :=
    congrArg ConstraintSet.mk (Finset.sort_empty _)
  have hr : GrantRights.isSubsetOf ⟨.all, 0⟩ ⟨.all, 0⟩ = true := rfl
  refine derive_eq_some.mpr ⟨⟨he, ?_⟩, ⟨rfl, hr⟩, congrArg (PlannedRequestGrant.mk _ _ · _) hc⟩
  have hs' : patternSubsumesSegments
      (readGrant id holder segments expires).selector.pattern.segments
      readEntry.selector.pattern.segments = true := hs
  rw [coversCapPattern, coversCapPathPattern, hs']
  rfl

theorem all_subsumes_entry : patternSubsumesSegments ["**"] ["a"] = true :=
  patternSubsumesSegments_iff.mpr (.absorb rfl (.skip rfl .nil))

theorem stateGrants_derive :
    stateGrants.filterMap (derive 0 readEntry) = [plannedEntry .never, plannedEntry (.at_ 10)] := by
  rw [stateGrants, filterMap_cons_some (derive_readEntry all_subsumes_entry rfl),
    filterMap_cons_some (derive_readEntry all_subsumes_entry (by decide)), filterMap_nil]

theorem entryPlans_planned {anchors : List Grant}
    (h : (anchors.filterMap (derive 0 readEntry)).toFinset = entryPlans) :
    planGrantsFromViews anchors 0 4 [readEntry] = .ok entryPlans.sort := by
  have hs : plannedSet anchors 0 [readEntry] = entryPlans := by simpa [plannedSet] using h
  refine planGrantsFromViews_ok_iff.mpr ⟨by rw [hs], by rw [hs]; decide, ?_⟩
  have hm : plannedEntry .never ∈ anchors.filterMap (derive 0 readEntry) := by
    rw [← mem_toFinset, h]
    simp [entryPlans]
  obtain ⟨parent, hp, hd⟩ := mem_filterMap.mp hm
  rintro view hv
  rw [mem_singleton.mp hv]
  exact ⟨parent, hp, by rw [hd]; rfl⟩

theorem delegation_is_exact_readEntry :
    planGrantsFromViews stateGrants 0 4 [readEntry] = .ok entryPlans.sort ∧
      entryPlans.sort.length = 2 ∧ ∃ planned ∈ entryPlans.sort, ∀ id child,
        (planned.attached id child).authorizes "read" entryPath "get" .null 7 = true := by
  have hplan : planGrantsFromViews stateGrants 0 4 [readEntry] = .ok entryPlans.sort :=
    entryPlans_planned (by rw [stateGrants_derive]; rfl)
  have htemplate : matchSegments readEntry.selector.pattern.segments entryPath.segments = true :=
    matchSegments_iff.mpr (.single rfl rfl .nil)
  have hanchor : matchSegments (readGrant 2 1 ["**"] (.at_ 10)).selector.pattern.segments
      entryPath.segments = true := matchSegments_iff.mpr (.absorb rfl (.skip rfl .nil))
  have hcovers : (readGrant 2 1 ["**"] (.at_ 10)).selector.pattern.coversCapPattern
      readEntry.selector.pattern = true :=
    (derive_eq_some.mp (derive_readEntry all_subsumes_entry (by decide))).1.2
  refine ⟨hplan, (Finset.length_sort _).trans (by decide),
    (delegation_is_exact _ _ _ _ _ hplan (by decide)).2.1 readEntry (.head _) _ rfl
      (readGrant 2 1 ["**"] (.at_ 10)) (.tail _ (.head _)) (by decide) hcovers rfl _ _ _ _ _ ?_ ?_⟩
  · rw [RequestGrantView.authorizes, ResourceSelector.matches, coversPath, htemplate]
    rfl
  · rw [Grant.authorizes, Grant.covers, ResourceSelector.matches, coversPath, hanchor]
    rfl

/-! ## Chains of delegation -/

open RegistryInner

def RegistryInner.grantsOf (inner : RegistryInner) (process : Nat) : List Grant :=
  (inner.grantsByHolder process).filterMap inner.grants

/-- The grants attached to a process while `calls` are registered: none, or those planned for it
under what its anchor holds at the time. -/
inductive Attached (calls : List Grant) : Nat → List Grant → Prop
  | none (process : Nat) : Attached calls process []
  | spawn {past attached : List Grant} {views : List RequestGrantView} {nowMillis : Int64}
      {limit anchor : Nat} {plan : List PlannedRequestGrant} (h : Attached calls anchor attached)
      (hc : past <+: calls)
      (hp : planGrantsFromViews
        ((past.foldl registerGrant {}).grantsOf anchor ++ attached) nowMillis
        limit views = .ok plan)
      (hr : ∀ view ∈ views, view.selector.pattern.isGlobalRoot = false)
      (ids : PlannedRequestGrant → Nat) (child : Nat) :
      Attached calls child (plan.map fun planned => planned.attached (ids planned) child)

/-- However long the chain of anchors, an attached grant authorizes no more than registered ones. -/
theorem attached_never_amplifies {calls attached : List Grant} {process : Nat}
    (h : Attached calls process attached) {grant : Grant} (hg : grant ∈ attached)
    (ha : grant.authorizes verb target method input time = true) :
    ∃ origin ∈ calls, origin.authorizes verb target method input time = true := by
  induction h generalizing grant with
  | none => cases hg
  | @spawn past _ _ _ _ _ _ h hc hp hr ids child ih =>
    obtain ⟨planned, hm, rfl⟩ := mem_map.mp hg
    obtain ⟨rfl, -⟩ := planGrantsFromViews_ok_iff.mp hp
    rw [Finset.mem_sort, mem_plannedSet] at hm
    obtain ⟨view, hv, parent, hm, hd⟩ := hm
    have ha := authorizes_of_planned hd (hr view hv) ha
    rcases mem_append.mp hm with hm | hm
    · obtain ⟨id, -, hid⟩ := mem_filterMap.mp hm
      rw [(indexed_foldl past).2] at hid
      exact ⟨parent, hc.subset (mem_reverse.mp (mem_of_find?_eq_some hid)), ha⟩
    · exact ih hm ha

theorem attached_derive {child : Nat} (ids : PlannedRequestGrant → Nat) :
    ((entryPlans.sort.map fun planned => planned.attached (ids planned) child).filterMap
      (derive 0 readEntry)).toFinset = entryPlans := by
  have hd : ∀ planned ∈ entryPlans.sort,
      derive 0 readEntry (planned.attached (ids planned) child) = some planned := by
    intro planned hp
    have hs : patternSubsumesSegments ["a"] ["a"] = true :=
      patternSubsumesSegments_iff.mpr (.single rfl rfl .nil)
    rw [Finset.mem_sort, entryPlans, Finset.mem_insert, Finset.mem_singleton] at hp
    rcases hp with rfl | rfl
    · exact derive_readEntry hs rfl
    · exact derive_readEntry hs (by decide)
  rw [filterMap_map]
  exact (congrArg toFinset ((filterMap_congr hd).trans filterMap_some)).trans
    (Finset.sort_toFinset _ _)

theorem attached_never_amplifies_readEntry : ∃ attached, Attached stateGrants 3 attached ∧
    attached.length = 2 ∧ ∃ grant ∈ attached,
      grant.authorizes "read" entryPath "get" .null 7 = true ∧
      ∃ origin ∈ stateGrants, origin.authorizes "read" entryPath "get" .null 7 = true := by
  have hfirst : Attached stateGrants 2
      (entryPlans.sort.map fun planned => planned.attached 0 2) := by
    refine .spawn (.none 1) prefix_rfl (entryPlans_planned ?_) (by decide) (fun _ => 0) 2
    exact congrArg toFinset stateGrants_derive
  have hsecond : Attached stateGrants 3
      (entryPlans.sort.map fun planned => planned.attached 0 3) :=
    .spawn hfirst prefix_rfl (entryPlans_planned (attached_derive _)) (by decide) (fun _ => 0) 3
  have hmem : (plannedEntry .never).attached 0 3 ∈
      entryPlans.sort.map fun planned => planned.attached 0 3 :=
    mem_map_of_mem ((Finset.mem_sort _).mpr (by simp [entryPlans]))
  have hs : matchSegments ((plannedEntry .never).attached 0 3).selector.pattern.segments
      entryPath.segments = true := matchSegments_iff.mpr (.single rfl rfl .nil)
  have hreads : ((plannedEntry .never).attached 0 3).authorizes "read" entryPath "get" .null 7 =
      true := by
    rw [Grant.authorizes, Grant.covers, ResourceSelector.matches, coversPath, hs]
    rfl
  refine ⟨_, hsecond, ?_, _, hmem, hreads, attached_never_amplifies hsecond hmem hreads⟩
  rw [length_map, Finset.length_sort]
  decide

end Xolotl.Kernel
