import Xolotl.Lib.Text

/-! Text as the key of an ordered map. -/

namespace Xolotl.Types

structure Key where
  text : Text
  deriving DecidableEq

namespace Key

def order (key : Key) : List Nat := key.text.bytes.map UInt8.toNat

theorem order_injective : Function.Injective order := by
  intro a b h
  have hbs : a.text.bytes = b.text.bytes :=
    List.map_injective_iff.mpr (fun _ _ => UInt8.toNat_inj.mp) h
  exact congrArg Key.mk (Text.bytes_injective hbs)

instance : LinearOrder Key := LinearOrder.lift' order order_injective

instance : Inhabited Key := ⟨⟨[]⟩⟩

end Key

end Xolotl.Types
