import Xolotl.Types.Path
import Xolotl.Types.Value

/-! Provenance of values: the sequence of recorded sources, and its union. -/

namespace Xolotl.Types

inductive TaintSource
  | authorConstant
  | modelOutput
  | inbound (source channel : Text)
  | fetched (host : Text)
  | protected_ (path : Path)
  deriving DecidableEq

structure TaintSet where
  sources : List TaintSource
  deriving DecidableEq

namespace TaintSet

def pristine : TaintSet := ⟨[]⟩

def add (t : TaintSet) (source : TaintSource) : TaintSet :=
  if source ∈ t.sources then t else ⟨t.sources ++ [source]⟩

def union (t other : TaintSet) : TaintSet := other.sources.foldl add t

def merged (t other : TaintSet) : TaintSet := t.union other

end TaintSet

structure TaintedValue where
  value : Value
  taint : TaintSet
  deriving DecidableEq

end Xolotl.Types
