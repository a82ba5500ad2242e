import Xolotl.Types.Capability

/-! Attenuation and authority. Coverage between capabilities implies coverage of
every request, with one exception: a local catch-all such as `*://*` covers the
canonical root `*://**`, which alone also selects clustered paths. -/

namespace Xolotl.Types

open List Capability
namespace Capability

/-! ## Coverage of requests along coverage of capabilities -/

theorem clusterSelects_trans {a b c : Option Text} (hab : clusterSelects a b = true)
    (hbc : clusterSelects b c = true) : clusterSelects a c = true := by
  cases a <;> cases b <;> cases c <;>
    simp only [clusterSelects, Bool.or_eq_true, beq_iff_eq, Bool.false_eq_true] at *
  rcases hab with h | rfl
  · exact .inl h
  · exact hbc

theorem isGlobalRoot_iff {c : Capability} : c.isGlobalRoot = true ↔
    c.cluster = none ∧ c.verb = "*" ∧ c.scheme = "**" ∧ c.segments = [("**" : Text)] := by
  simp only [isGlobalRoot, Bool.and_eq_true, beq_iff_eq, and_assoc]

theorem coversPath_of_isGlobalRoot {c : Capability} (h : c.isGlobalRoot = true) (verb : Text)
    (target : Path) : c.coversPath verb target = true := by
  obtain ⟨-, hv, hsc, hs⟩ := isGlobalRoot_iff.mp h
  have hm : matchSegments ["**"] target.segments = true :=
    matchSegments_of_all_globstar (by simp) (by simp) _
  simpa [coversPath, clusterCoversPath, h, hv, hsc, hs, isWildcardScheme] using hm

variable {p r : Capability}

theorem coversPath_mono (h : p.coversCapPathPattern r = true)
    (hro : r.isGlobalRoot = true → p.isGlobalRoot = true) {verb : Text} {target : Path}
    (hr : r.coversPath verb target = true) : p.coversPath verb target = true := by
  rcases hp : p.isGlobalRoot with _ | _
  · have hr0 : r.isGlobalRoot = false := by
      rcases hr0 : r.isGlobalRoot with _ | _
      · rfl
      · rw [hro hr0] at hp
        exact hp
    simp only [coversCapPathPattern, clusterCoversCap, hp, Bool.and_eq_true] at h
    simp only [coversPath, clusterCoversPath, hr0, Bool.and_eq_true] at hr
    obtain ⟨⟨⟨hc, hv⟩, hs⟩, hse⟩ := h
    obtain ⟨⟨⟨hc', hv'⟩, hs'⟩, hse'⟩ := hr
    have hve : (p.verb == "*" || p.verb == verb) = true := by
      simp only [Bool.or_eq_true, beq_iff_eq] at hv hv' ⊢
      rcases hv with hv | hv
      · exact .inl hv
      · rwa [hv]
    have hsc : (isWildcardScheme p.scheme || p.scheme == target.scheme) = true := by
      simp only [Bool.or_eq_true, beq_iff_eq] at hs hs' ⊢
      rcases hs with hs | hs
      · exact .inl hs
      · rwa [hs]
    simp only [coversPath, clusterCoversPath, hp, Bool.false_or, hve, hsc,
      clusterSelects_trans hc hc', patternSubsumesSegments_sound hse hse', Bool.and_self]
  · exact coversPath_of_isGlobalRoot hp verb target

theorem method_mono (h : (p.method.isNone || p.method == r.method) = true)
    {method : Text} (hr : (r.method.all fun selected => selected == method) = true) :
    (p.method.all fun selected => selected == method) = true := by
  rcases hp : p.method with _ | selected
  · rfl
  · rw [hp] at h
    have hrm : r.method = some selected := by simpa using (beq_iff_eq.mp (by simpa using h)).symm
    rwa [hrm] at hr

theorem predicateHolds_mono
    (h : (p.predicate.isNone || p.predicate == r.predicate) = true) {input : Value}
    {nowMillis : Int64} (hr : r.predicateHolds input nowMillis = true) :
    p.predicateHolds input nowMillis = true := by
  rcases hp : p.predicate with _ | pred
  · simp [predicateHolds, hp]
  · rw [hp] at h
    have hrp : r.predicate = some pred := by simpa using (beq_iff_eq.mp (by simpa using h)).symm
    simpa [predicateHolds, hp, hrp] using hr

/-! ## The exception -/

/-- Selects every local path, but is not the canonical root. -/
structure LocalCatchAll (p : Capability) : Prop where
  cluster : p.cluster = none
  verb : p.verb = "*"
  scheme : isWildcardScheme p.scheme = true
  nonempty : p.segments ≠ []
  globstars : ∀ s ∈ p.segments, s = "**"
  notRoot : p.isGlobalRoot = false

/-- `r` is the canonical root, restricted no further than `p`, and `p` is a
local catch-all; some request satisfies the predicate of `r`. -/
structure Widens (p r : Capability) : Prop where
  catchAll : LocalCatchAll p
  root : r.isGlobalRoot = true
  method : p.method = none ∨ p.method = r.method
  predicate : p.predicate = none ∨ p.predicate = r.predicate
  satisfiable : ∃ input nowMillis, r.predicateHolds input nowMillis = true

theorem Widens.coversCap (h : Widens p r) : p.coversCap r = true := by
  obtain ⟨hc, hv, hs, hse⟩ := isGlobalRoot_iff.mp h.root
  have hsu : patternSubsumesSegments p.segments ["**"] = true :=
    patternSubsumesSegments_globstar_iff.mpr ⟨h.catchAll.nonempty, h.catchAll.globstars⟩
  have hm : (p.method.isNone || p.method == r.method) = true := by
    rcases h.method with hm | hm <;> simp [hm]
  have hp : (p.predicate.isNone || p.predicate == r.predicate) = true := by
    rcases h.predicate with hp | hp <;> simp [hp]
  simpa [Capability.coversCap, coversCapPattern, coversCapPathPattern, clusterCoversCap,
    h.catchAll.cluster, hc, clusterSelects, h.catchAll.verb, h.catchAll.scheme, hse, hm, hp]
    using hsu

theorem localCatchAll_of_coversCapPathPattern
    (h : p.coversCapPathPattern r = true) (hr : r.isGlobalRoot = true)
    (hp : p.isGlobalRoot = false) : LocalCatchAll p := by
  obtain ⟨hc, hv, hs, hse⟩ := isGlobalRoot_iff.mp hr
  simp only [coversCapPathPattern, clusterCoversCap, hp, hc, hv, hs, hse, Bool.false_or,
    Bool.and_eq_true, Bool.or_eq_true, beq_iff_eq, or_self] at h
  obtain ⟨⟨⟨hcl, hve⟩, hsc⟩, hsg⟩ := h
  obtain ⟨hne, ha⟩ := patternSubsumesSegments_globstar_iff.mp hsg
  have hcu : p.cluster = none := by
    rcases hpc : p.cluster with _ | c
    · rfl
    · rw [hpc] at hcl
      cases hcl
  have hsh : isWildcardScheme p.scheme = true := by
    rcases hsc with hsc | hsc
    · exact hsc
    · rw [hsc]
      rfl
  exact ⟨hcu, hve, hsh, hne, ha, hp⟩

def clusteredPath : Path where
  cluster := some "a"
  scheme := "state"
  segments := []
  scheme_valid := Path.valid_state
  cluster_valid := by
    intro c hc
    rw [← Option.mem_some_iff.mp hc]
    decide
  segments_valid := Path.valid_nil

theorem LocalCatchAll.not_coversPath (h : LocalCatchAll p) (verb : Text) :
    p.coversPath verb clusteredPath = false := by
  simp [coversPath, clusterCoversPath, h.notRoot, h.cluster, clusteredPath, clusterSelects]

/-! ## Attenuation -/

/-- Every request that `r` authorizes is authorized by `p`, for calls without a
method and for calls that name one. -/
def AuthorizesAll (p r : Capability) : Prop :=
  (∀ verb (target : Path) input nowMillis, target.isConcrete = true →
    r.coversWith verb target input nowMillis = true →
    p.coversWith verb target input nowMillis = true) ∧
  (∀ verb (target : Path) method input nowMillis, target.isConcrete = true →
    r.matchesMethod verb target method = true → r.predicateHolds input nowMillis = true →
    p.matchesMethod verb target method = true ∧ p.predicateHolds input nowMillis = true)

theorem authorizesAll_of_coversPath (h : p.coversCap r = true)
    (hpa : ∀ verb target, r.coversPath verb target = true → p.coversPath verb target = true) :
    AuthorizesAll p r := by
  simp only [Capability.coversCap, coversCapPattern, Bool.and_eq_true] at h
  obtain ⟨⟨-, hm⟩, hp⟩ := h
  refine ⟨?_, ?_⟩
  · intro verb target input nowMillis _ hr
    simp only [coversWith, Bool.and_eq_true] at hr ⊢
    obtain ⟨⟨hrm, hrp⟩, hrh⟩ := hr
    have hpm : p.method.isNone = true := by
      rcases hpm : p.method with _ | selected
      · rfl
      · rw [Option.isNone_iff_eq_none.mp hrm, hpm] at hm
        cases hm
    exact ⟨⟨hpm, hpa _ _ hrp⟩, predicateHolds_mono hp hrh⟩
  · intro verb target method input nowMillis _ hr hrh
    simp only [matchesMethod, Bool.and_eq_true] at hr ⊢
    exact ⟨⟨hpa _ _ hr.1, method_mono hm hr.2⟩, predicateHolds_mono hp hrh⟩

theorem authorizesAll_of_unsatisfiable
    (h : ¬ ∃ input nowMillis, r.predicateHolds input nowMillis = true) : AuthorizesAll p r := by
  refine ⟨?_, ?_⟩
  · intro verb target input nowMillis _ hr
    simp only [coversWith, Bool.and_eq_true] at hr
    exact absurd ⟨input, nowMillis, hr.2⟩ h
  · intro verb target method input nowMillis _ _ hr
    exact absurd ⟨input, nowMillis, hr⟩ h

theorem authorizesAll_of_coversCap (h : p.coversCap r = true)
    (hw : ¬ Widens p r) : AuthorizesAll p r := by
  have h' := h
  simp only [Capability.coversCap, coversCapPattern, Bool.and_eq_true, Bool.or_eq_true,
    Option.isNone_iff_eq_none, beq_iff_eq] at h'
  obtain ⟨⟨hpa, hm⟩, hp⟩ := h'
  by_cases hro : r.isGlobalRoot = true → p.isGlobalRoot = true
  · exact authorizesAll_of_coversPath h fun _ _ => coversPath_mono hpa hro
  · -- Only an unsatisfiable predicate keeps this pair from being an exception.
    obtain ⟨hr, hpr⟩ := Classical.not_imp.mp hro
    apply authorizesAll_of_unsatisfiable
    intro hs
    exact hw ⟨localCatchAll_of_coversCapPathPattern hpa hr (by simpa using hpr), hr, hm, hp, hs⟩

theorem Widens.not_authorizesAll (h : Widens p r) : ¬ AuthorizesAll p r := by
  rintro ⟨-, hm⟩
  obtain ⟨input, nowMillis, hs⟩ := h.satisfiable
  have hr : r.matchesMethod "read" clusteredPath (r.method.getD "") = true := by
    rw [matchesMethod, coversPath_of_isGlobalRoot h.root]
    rcases r.method with _ | method <;> simp
  obtain ⟨hp, -⟩ := hm _ _ _ input nowMillis (by decide) hr hs
  rw [matchesMethod, h.catchAll.not_coversPath] at hp
  cases hp

end Capability

namespace CapSet

def AuthorizesAll (s r : CapSet) : Prop :=
  (∀ verb (target : Path) input nowMillis, target.isConcrete = true →
    r.containsWith verb target input nowMillis = true →
    s.containsWith verb target input nowMillis = true) ∧
  (∀ verb (target : Path) method, target.isConcrete = true →
    r.containsMethod verb target method = true → s.containsMethod verb target method = true)

variable {s requested : CapSet}

theorem AuthorizesAll.of_mem {p r : Capability} (hp : p ∈ s.caps)
    (hco : p.coversCap r = true) (h : p.AuthorizesAll r) : s.AuthorizesAll ⟨[r]⟩ := by
  refine ⟨?_, ?_⟩
  · intro verb target input nowMillis hc hr
    have hr : r.coversWith verb target input nowMillis = true := by simpa [containsWith] using hr
    exact any_eq_true.mpr ⟨p, hp, h.1 verb target input nowMillis hc hr⟩
  · intro verb target method hc hr
    have hr : r.coversMethod verb target method = true := by simpa [containsMethod] using hr
    rw [coversMethod, Bool.and_eq_true, Option.isNone_iff_eq_none] at hr
    have hn : r.predicateHolds .null 0 = true := by simp [predicateHolds, hr.1]
    have hpn : p.predicate.isNone = true := by
      simp only [Capability.coversCap, Bool.and_eq_true, hr.1] at hco
      rcases hpp : p.predicate with _ | pred
      · rfl
      · rw [hpp] at hco
        cases hco.2
    refine any_eq_true.mpr ⟨p, hp, ?_⟩
    rw [coversMethod, hpn, (h.2 verb target method .null 0 hc hr.2 hn).1]
    rfl

theorem authorizesAll_iff_forall :
    s.AuthorizesAll requested ↔ ∀ r ∈ requested.caps, s.AuthorizesAll ⟨[r]⟩ := by
  constructor
  · intro h r hr
    refine ⟨fun verb target input nowMillis hc hco => ?_, fun verb target method hc hco => ?_⟩
    · exact h.1 verb target input nowMillis hc
        (any_eq_true.mpr ⟨r, hr, by simpa [containsWith] using hco⟩)
    · exact h.2 verb target method hc (any_eq_true.mpr ⟨r, hr, by simpa [containsMethod] using hco⟩)
  · intro h
    refine ⟨fun verb target input nowMillis hc hco => ?_, fun verb target method hc hco => ?_⟩
    · obtain ⟨r, hr, hco⟩ := any_eq_true.mp hco
      exact (h r hr).1 verb target input nowMillis hc (by simpa [containsWith] using hco)
    · obtain ⟨r, hr, hco⟩ := any_eq_true.mp hco
      exact (h r hr).2 verb target method hc (by simpa [containsMethod] using hco)

theorem intersect_authorizesAll_iff : s.AuthorizesAll (s.intersect requested) ↔
      ∀ p ∈ s.caps, ∀ r ∈ requested.caps, Capability.Widens p r → s.AuthorizesAll ⟨[r]⟩ := by
  rw [authorizesAll_iff_forall]
  constructor
  · intro h p hp r hr hw
    refine h r ?_
    simp only [intersect, mem_filter, any_eq_true]
    exact ⟨hr, p, hp, hw.coversCap⟩
  · intro h r hr
    simp only [intersect, mem_filter, any_eq_true] at hr
    obtain ⟨hm, p, hp, hc⟩ := hr
    by_cases hw : Capability.Widens p r
    · exact h p hp r hm hw
    · exact .of_mem hp hc (authorizesAll_of_coversCap hc hw)

end CapSet

/-- Attenuation never widens authority, except where a local catch-all meets the
canonical root: exactly there coverage of the capability does not imply coverage
of its requests, and a set loses the guarantee only through such a pair. -/
theorem attenuation_exact (p r : Capability) (s requested : CapSet) :
    ((p.coversCap r = true → p.AuthorizesAll r) ↔ ¬ p.Widens r) ∧
    (s.AuthorizesAll (s.intersect requested) ↔
      ∀ p ∈ s.caps, ∀ r ∈ requested.caps, p.Widens r → s.AuthorizesAll ⟨[r]⟩) := by
  refine ⟨⟨?_, ?_⟩, CapSet.intersect_authorizesAll_iff⟩
  · intro h hw
    exact hw.not_authorizesAll (h hw.coversCap)
  · intro hw hcov
    exact authorizesAll_of_coversCap hcov hw

def localRoot : Capability :=
  { verb := "*", cluster := none, scheme := "*", segments := ["**"],
    method := none, predicate := none }

def globalRoot : Capability :=
  { verb := "*", cluster := none, scheme := "**", segments := ["**"],
    method := none, predicate := none }

/-- `*://*` admits a child `*://**`, which reads a clustered path that `*://*`
does not select. -/
theorem localRoot_admits_globalRoot :
    Capability.parse "*://*" = .ok localRoot ∧ Capability.parse "*://**" = .ok globalRoot ∧
    localRoot.coversCap globalRoot = true ∧
    CapSet.containsWith (CapSet.intersect ⟨[localRoot]⟩ ⟨[globalRoot]⟩) "read"
      clusteredPath .null 0 = true ∧
    CapSet.containsWith ⟨[localRoot]⟩ "read" clusteredPath .null 0 = false := by
  have hwiden : localRoot.Widens globalRoot :=
    ⟨⟨rfl, rfl, rfl, by decide, by decide, rfl⟩, rfl, .inl rfl, .inl rfl, ⟨.null, 0, rfl⟩⟩
  have hcov := hwiden.coversCap
  have hroot : globalRoot.coversPath "read" clusteredPath = true :=
    coversPath_of_isGlobalRoot rfl _ _
  have hlocal : localRoot.coversPath "read" clusteredPath = false :=
    hwiden.catchAll.not_coversPath "read"
  refine ⟨rfl, rfl, hcov, ?_, ?_⟩
  · have hmem : globalRoot ∈ (CapSet.intersect ⟨[localRoot]⟩ ⟨[globalRoot]⟩).caps := by
      simp [CapSet.intersect, hcov]
    refine any_eq_true.mpr ⟨globalRoot, hmem, ?_⟩
    rw [coversWith, hroot]
    rfl
  · simp only [CapSet.containsWith, coversWith, any_cons, any_nil, hlocal,
      Bool.and_false, Bool.false_and, Bool.or_self]

end Xolotl.Types
