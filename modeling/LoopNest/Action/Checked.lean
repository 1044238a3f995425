import LoopNest.Action.Basic

/-! Binding with checked arithmetic. What is reckoned with bounds wraps round where it leaves 64 bits.
A program may also be built to stop there; then binding has no result, which `none` stands for. Only
tile counts are reckoned, so only tilings can stop. -/
namespace LoopNest

def word? (v : Int) : Option Int64 := if Text.fitsSigned v then some (.ofInt v) else none

/-- The tile count with each of its operations checked. -/
def tileCountChecked (l : Loop) (size : Factor) : Option Bound :=
  match l.upper, l.lower with
  | .concrete upper, .concrete lower => do
    let extent ← word? (upper.toInt - lower.toInt)
    let sum ← word? ((max extent 0).toInt + size.word.toInt)
    let dividend ← word? (sum.toInt - 1)
    let count ← word? (dividend.toInt.tdiv size.word.toInt)
    return .concrete count
  | _, _ => some (tileCount l size)

def tileLoopsChecked (taken : List String) : List (Loop × Factor) → Option (List Loop)
  | [] => some []
  | (l, size) :: band => do
    let upper ← tileCountChecked l size
    let tile := { tileLoop taken l size with upper }
    let tiles ← tileLoopsChecked (tile.name :: taken) band
    return tile :: tiles

def Nest.tileChecked (n : Nest) (band : List (LoopId × Factor)) :
    Option (Except Nest.Error Nest) :=
  let ordered := sortBy (fun part => part.1.level) band
  if n.isBand (ordered.map Prod.fst) then
    match n.bandLoops ordered with
    | .ok [] => some (.ok n)
    | .ok ((outer, size) :: rest) => do
      let tiles ← tileLoopsChecked n.loops.names ((outer, size) :: rest)
      return .ok { n with loops := n.loops.enclose outer.name tiles }
    | .error e => some (.error e)
  else some (.ok n)

def Change.applyChecked (n : Nest) : Change → Option (Except Nest.Error Nest)
  | tiling2D a b s t => n.tileChecked [(a, s), (b, t)]
  | tiling3D a b c s t u => n.tileChecked [(a, s), (b, t), (c, u)]
  | change => some (change.apply n)

namespace Action

/-- What binding does before it changes a copy of the nest: it resolves the loops, finds the targets
and renders the program. -/
def prepare (a : Action) (n : Nest) : Except Action.Error (Change × List String × Rendering) := do
  let change ← (a.change.resolve n).mapError .notFound
  change.check n
  let targets ← findTargets n change a.explicit
  let rendering ← (change.render n targets).mapError .notFound
  return (change, targets, rendering)

/-- Binds an action to a nest where arithmetic is checked. -/
def bindChecked (a : Action) (n : Nest) : Option (Except Action.Error Action) :=
  match a.prepare n with
  | .error e => some (.error e)
  | .ok (change, targets, rendering) => do
    let changed ← change.applyChecked n
    return do
      let nest ← finish change.form changed
      return { a with change, binding := some { nest, targets, rendering } }

end Action

end LoopNest
