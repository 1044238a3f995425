import LoopNest.Nest.Basic

/-! Sharing levels: how deep the loops go that two computations run under together. A program
for the backend gives every computation but the first the level that it shares with the one
before it. -/
namespace LoopNest

/-- How far two computations share their loops. -/
inductive Sharing where
  | independent
  | upTo (level : Nat)
deriving DecidableEq

namespace Sharing

/-- The number written to the backend: the level as a signed word, or -1 for separate loops. -/
def code : Sharing → Int
  | independent => -1
  | upTo level => Int.bmod level Text.unsignedBound

/-- The level when `count` loops are put around both computations. Two separate ones then share
the new loops. -/
def shift : Sharing → Nat → Sharing
  | sharing, 0 => sharing
  | independent, count + 1 => upTo count
  | upTo level, count + 1 => upTo (level + (count + 1))

def text (s : Sharing) : String := toString s.code

end Sharing

/-- Where two ways outwards meet, each from an innermost loop: the deeper one goes out first, the
second one if both are equally deep. -/
def meet : List LoopId → List LoopId → Sharing
  | a :: as, b :: bs =>
    if a.name = b.name then .upTo a.level
    else if b.level < a.level then meet as (b :: bs)
    else meet (a :: as) bs
  | _, _ => .independent
termination_by outwards outwards' => outwards.length + outwards'.length

namespace Nest

def sharing (n : Nest) (c d : String) : Except Nest.Error Sharing :=
  match n.chain c with
  | .error e => .error e
  | .ok chain =>
    match n.chain d with
    | .error e => .error e
    | .ok chain' => .ok (meet chain.reverse chain'.reverse)

/-- The sharing levels of neighbours in a list. Between two targets, `added` loops are put
around both. -/
def sharings (n : Nest) (targets : List String) (added : Nat) :
    List String → Except Nest.Error (List Sharing)
  | c :: d :: rest =>
    match n.sharing c d with
    | .error e => .error e
    | .ok level =>
      let level :=
        if targets.contains c && targets.contains d then level.shift added else level
      match n.sharings targets added (d :: rest) with
      | .error e => .error e
      | .ok levels => .ok (level :: levels)
  | _ => .ok []

end Nest

def clearStatement : String := "clear_implicit_function_sched_graph();\n    "

/-- The statement that rebuilds the execution order: every computation runs behind the one
before it and shares loops with it up to the level given. -/
def orderStatement (order : List String) (levels : List Sharing) : String :=
  match order with
  | [] => ""
  | first :: rest =>
    clearStatement ++ first ++
      String.join ((rest.zip levels).map fun (c, level) =>
        ".then(" ++ c ++ "," ++ level.text ++ ")") ++ ";\n"

end LoopNest
