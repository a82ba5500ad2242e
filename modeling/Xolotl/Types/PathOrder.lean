import Xolotl.Types.Key
import Xolotl.Types.Path

/-! The order of paths: cluster, then scheme, then segments, each by its bytes. -/

namespace Xolotl.Types.Path

def sortKey (p : Path) : List Key ×ₗ Key ×ₗ List Key :=
  toLex (p.cluster.toList.map Key.mk, toLex (Key.mk p.scheme, p.segments.map Key.mk))

theorem map_mk_injective : Function.Injective (List.map Key.mk) :=
  List.map_injective_iff.mpr fun _ _ h => congrArg Key.text h

theorem sortKey_injective : Function.Injective sortKey := by
  intro p q h
  have hpa := toLex.injective h
  rw [Prod.mk.injEq] at hpa
  have hr := toLex.injective hpa.2
  rw [Prod.mk.injEq] at hr
  refine Path.ext ?_ (congrArg Key.text hr.1) (map_mk_injective hr.2)
  cases hp : p.cluster <;> cases hq : q.cluster <;> simp_all

instance : LinearOrder Path := LinearOrder.lift' sortKey sortKey_injective

def matches_ (p pattern : Path) : Bool :=
  pattern.cluster == p.cluster && pattern.scheme == p.scheme &&
    matchSegments pattern.segments p.segments

end Xolotl.Types.Path
