import LoopNest.Text.Blank
import LoopNest.Text.Digits

/-! Loop bounds: known integers of 64 bits and symbolic expressions, and their text. -/
namespace LoopNest

instance intCastInt64 : IntCast Int64 := ⟨Int64.ofInt⟩

instance coeInt64 : Coe Int64 Int := ⟨Int64.toInt⟩

/-- A loop bound: a known integer, or an expression such as `N - 2` that is not looked into. -/
inductive Bound where
  | concrete (value : Int64)
  | symbolic (text : String)
deriving DecidableEq

namespace Bound

instance : Inhabited Bound := ⟨concrete 0⟩

def value? : Bound → Option Int64
  | concrete value => some value
  | symbolic _ => none

/-- Reads a bound: an integer in range is concrete, all else is symbolic. White space at the
ends does not count. -/
def ofText (s : String) : Bound :=
  match Text.signed? (Text.trim s) with
  | some value => concrete (.ofInt value)
  | none => symbolic (Text.trim s)

def text : Bound → String
  | concrete value => toString value.toInt
  | symbolic text => text

example : ofText " 64 " = concrete 64 ∧ ofText " N " = symbolic "N" := by decide

end Bound

end LoopNest
