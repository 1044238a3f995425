import LoopNest.Nest.Sharing
import LoopNest.Action.Change

/-! Renderings: the program that tells the backend about a change. Each target has a statement of
its own; where there are several computations the execution order is rebuilt behind them. -/
namespace LoopNest

/-- The texts of a change for the backend and for logs. -/
structure Rendering where
  program : String
  signature : String
  legality : String
deriving DecidableEq

def levelMark (id : LoopId) : String := "L" ++ toString id.level

def quotedList (names : List String) : String :=
  "[" ++ String.intercalate ", " (names.map fun name => "'" ++ name ++ "'") ++ "]"

namespace Change

/-- The method and the numbers of a change's statement; a fusion has none. -/
def method? : Change → Option (String × List String)
  | tiling2D a b s t =>
    some ("tile", [toString a.level, toString b.level, s.text, t.text])
  | tiling3D a b c s t u =>
    some ("tile",
      [toString a.level, toString b.level, toString c.level, s.text, t.text, u.text])
  | interchange a b => some ("interchange", [toString a.level, toString b.level])
  | parallelization a => some ("tag_parallel_level", [toString a.level])
  | unrolling a f => some ("unroll", [toString a.level, f.text])
  | reversal a => some ("loop_reversal", [toString a.level])
  | fusion _ _ => none

def statement (c : Change) (computation : String) : String :=
  match c.method? with
  | some (method, arguments) =>
    computation ++ "." ++ method ++ "(" ++ String.intercalate ", " arguments ++ ");\n"
  | none => ""

def letters : Change → String
  | tiling2D .. => "T2"
  | tiling3D .. => "T3"
  | interchange .. => "I"
  | parallelization .. => "P"
  | unrolling .. => "U"
  | reversal .. => "R"
  | fusion .. => "F"

def signature (c : Change) (targets : List String) : String :=
  c.letters ++ "(" ++
    String.intercalate ","
      (c.loops.map levelMark ++ c.factors.map Factor.text ++
        ["comps=" ++ quotedList targets]) ++ ")"

/-- Corrects sharing levels of neighbours for a fusion: a computation under one of the two loops
then shares the merged loop with a neighbour under the other. -/
def adjustSharings (n : Nest) (order : List String) (levels : List Sharing) :
    Change → Except Nest.Error (List Sharing)
  | fusion a b => do
    let underA ← n.computationsUnder a
    let underB ← n.computationsUnder b
    return ((order.zip order.tail).zip levels).map fun ((c, d), level) =>
      if (underA.contains c && underB.contains d) || (underB.contains c && underA.contains d)
      then .upTo a.level
      else level
  | _ => .ok levels

def levels (n : Nest) (c : Change) (targets : List String) : Except Nest.Error (List Sharing) := do
  c.adjustSharings n n.order (← n.sharings targets c.form.addedLoops n.order)

def orderText (n : Nest) (c : Change) (targets : List String) : Except Nest.Error String :=
  if n.order.length ≤ 1 then .ok ""
  else (c.levels n targets).map (orderStatement n.order)

def render (n : Nest) (c : Change) (targets : List String) : Except Nest.Error Rendering := do
  let program := String.join (targets.map c.statement) ++ (← c.orderText n targets)
  return { program, signature := c.signature targets, legality := program }

end Change

end LoopNest
