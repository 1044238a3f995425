import LoopNest.Bound

/-! Loops and computations: what a nest is made of. -/
namespace LoopNest

/-- Names a loop by name and level, or a computation's enclosing loop by the computation's name
and the level. -/
structure LoopId where
  name : String
  level : Nat
deriving DecidableEq, Inhabited

namespace LoopId

def text (id : LoopId) : String := "(" ++ id.name ++ "," ++ toString id.level ++ ")"

def le (a b : LoopId) : Bool :=
  decide (a.name < b.name) || (a.name == b.name && decide (a.level ≤ b.level))

end LoopId

/-- A tile size or unroll factor: a positive number of 32 bits. -/
structure Factor where
  val : Nat
  pos : 0 < val
  lt : val < 4294967296
deriving DecidableEq

namespace Factor

def ofInt? (v : Int) : Option Factor :=
  if h : 0 < v.toNat ∧ v.toNat < 4294967296 then some ⟨v.toNat, h.1, h.2⟩ else none

@[simp] theorem ofInt?_val (f : Factor) : ofInt? f.val = some f := by
  simp only [ofInt?, Int.toNat_natCast]
  exact dif_pos ⟨f.pos, f.lt⟩

def text (f : Factor) : String := toString f.val

def word (f : Factor) : Int64 := .ofNat f.val

end Factor

structure Loop where
  name : String
  /-- Inclusive lower bound. -/
  lower : Bound
  /-- Exclusive upper bound. -/
  upper : Bound
  parallel : Bool := false
  unroll : Option Factor := none
  reversed : Bool := false
deriving DecidableEq

/-- The number of iterations between two known bounds. Like all arithmetic on bounds it wraps round
where it leaves 64 bits. -/
def Loop.extent? (l : Loop) : Option Int64 :=
  match l.upper, l.lower with
  | .concrete upper, .concrete lower => some (upper - lower)
  | _, _ => none

structure Computation where
  name : String
  expression : String
deriving DecidableEq

end LoopNest
