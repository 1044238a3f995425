import LoopNest.Table
import LoopNest.Nest.Basic

/-! Outlines: loops in a table, tied together by names. Names may dangle, repeat and run in
circles, so an outline is first searched for faults; one without any unfolds into a nest. -/
namespace LoopNest

/-- Loops by name, with links by name, and the computations with their ranks and loops. -/
structure Outline where
  loops : Table Entry
  roots : List String
  computations : Table Computation
  ranks : Table Nat
  innermost : Table String
deriving DecidableEq

namespace Outline

/-- What is wrong with a name in the list of roots: it must be that of a loop without parent at
level 0. -/
def rootFault? (o : Outline) (root : String) : Option Fault :=
  match o.loops.get? root with
  | none => some (.missingRoot root)
  | some e =>
    if e.parent.isSome then some (.enclosedRoot root)
    else if e.level ≠ 0 then some (.rootLevel root e.level)
    else none

/-- What is wrong with a name in a loop's list of children: it must be that of a loop one level
deeper that names the first loop as its parent. -/
def childFault? (o : Outline) (name : String) (e : Entry) (child : String) : Option Fault :=
  match o.loops.get? child with
  | none => some (.missingChild child name)
  | some c =>
    if c.parent ≠ some name then some (.strayChild child name)
    else if c.level ≠ e.level + 1 then some (.wrongLevel child c.level name e.level)
    else none

theorem length_eraseP_of_lookup {name : String} {e : Entry} {unseen : List (String × Entry)}
    (found : unseen.lookup name = some e) :
    (unseen.eraseP fun entry => entry.1 == name).length < unseen.length := by
  induction unseen with
  | nil => simp at found
  | cons entry unseen ih =>
    by_cases same : entry.1 = name
    · simp [same]
    · have differs : (entry.1 == name) = false := by simpa using same
      have differs' : (name == entry.1) = false := by simpa using Ne.symm same
      rw [List.lookup_cons, differs'] at found
      simpa [List.eraseP_cons, differs] using ih found

/-- Walks the links from the names that wait on a stack, the last one put there first, and marks
each loop as seen. The walk ends because every step takes one loop from the unseen ones. -/
def walkFault? (o : Outline) (unseen : List (String × Entry)) : List String → Option Fault
  | [] => if unseen.isEmpty then none else some .unreached
  | name :: waiting =>
    match _found : unseen.lookup name with
    | none => some (.reachedTwice name)
    | some e =>
      match e.children.findSome? (o.childFault? name e) with
      | some fault => some fault
      | none =>
        o.walkFault? (unseen.eraseP fun entry => entry.1 == name)
          (e.children.reverse ++ waiting)
termination_by unseen.length
decreasing_by exact length_eraseP_of_lookup _found

def placeFault? (o : Outline) : String × String → Option Fault
  | (computation, loop) =>
    if o.computations.contains computation then
      match o.loops.get? loop with
      | some e =>
        if computation ∈ e.computations then none
        else some (.unlistedComputation loop computation)
      | none => some (.missingLoop computation loop)
    else some (.unknownComputation computation)

def computationFault? (o : Outline) (computation : String) : Option Fault :=
  if !o.innermost.contains computation then some (.unplacedComputation computation)
  else if !o.ranks.contains computation then some (.unrankedComputation computation)
  else none

def ranksFault? (o : Outline) : Option Fault :=
  if o.ranks.values.eraseDups.length = o.computations.size ∧ o.ranks.size = o.computations.size
  then none
  else some .ranksNotPermutation

def fault? (o : Outline) : Option Fault :=
  (o.roots.findSome? o.rootFault?).or <|
  (o.walkFault? o.loops.entries o.roots.reverse).or <|
  (o.innermost.entries.findSome? o.placeFault?).or <|
  (o.computations.keys.findSome? o.computationFault?).or
  o.ranksFault?

/-- Unfolds a row of names into a forest, at most `depth` loops deep. -/
def unfold (o : Outline) : Nat → List String → Forest
  | 0, _ => .nil
  | depth + 1, names =>
    names.foldr
      (fun name rest =>
        match o.loops.get? name with
        | some e => .cons e.loop e.computations (o.unfold depth e.children) rest
        | none => rest)
      .nil

def nest (o : Outline) : Nest where
  loops := o.unfold o.loops.size o.roots
  computations := sortBy (fun c => (o.ranks.get? c.name).getD 0) o.computations.values

def nest? (o : Outline) : Except Nest.Error Nest :=
  match o.fault? with
  | some fault => .error (.malformed fault)
  | none => .ok o.nest

end Outline

def Nest.outline (n : Nest) : Outline where
  loops := Table.ofList (n.entries.map fun e => (e.loop.name, e))
  roots := n.loops.tops.map Loop.name
  computations := Table.ofList (n.computations.map fun c => (c.name, c))
  ranks := Table.ofList n.order.zipIdx
  innermost := Table.ofList (n.entries.flatMap fun e => e.computations.map fun c =>
    (c, e.loop.name))

end LoopNest
