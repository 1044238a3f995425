import LoopNest.Nest.Section
import LoopNest.Action.Form

/-! Candidates: the loops that an action of a form may sensibly take, found in the sections of a
nest. -/
namespace LoopNest

/-- Every run of `width` neighbours in a list. -/
def windows {α : Type} (width : Nat) : List α → List (List α)
  | [] => []
  | a :: rest =>
    if width ≤ rest.length + 1 then (a :: rest).take width :: windows width rest else []

def orderedPairs {α : Type} : List α → List (List α)
  | [] => []
  | a :: rest => rest.map (fun b => [a, b]) ++ orderedPairs rest

namespace Nest

def inside (n : Nest) (id : LoopId) : List LoopId :=
  match n.entry? id.name with
  | some e => e.children.map fun child => ⟨child, e.level + 1⟩
  | none => []

def isWorkingLeaf (n : Nest) (id : LoopId) : Bool :=
  match n.entry? id.name with
  | some e => e.children.isEmpty && !e.computations.isEmpty
  | none => false

def rootPairs (n : Nest) (root : LoopId) : List (List LoopId) :=
  (windows 2 n.roots).filter fun pair => pair.head? == some root

end Nest

namespace Form

def candidatesIn (n : Nest) (root : LoopId) (sections : List Section) : Form → List (List LoopId)
  | tiling2D => sections.flatMap (windows 2)
  | tiling3D => sections.flatMap (windows 3)
  | interchange => sections.flatMap orderedPairs
  | parallelization | reversal => sections.flatten.map fun id => [id]
  | unrolling =>
    ((sections.filterMap List.getLast?).filter n.isWorkingLeaf).map fun id => [id]
  | fusion =>
    n.rootPairs root ++
      (sections.filterMap List.getLast?).flatMap fun last => windows 2 (n.inside last)

/-- The candidates of a form, by the root that they stand below; a pair of roots stands below the
first of them. -/
def candidates (form : Form) (n : Nest) : List (LoopId × List (List LoopId)) :=
  n.sections.map fun (root, sections) => (root, form.candidatesIn n root sections)

end Form

end LoopNest
