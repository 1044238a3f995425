import LoopNest.Nest.Basic

/-! Renumbering: a new execution order that runs a loop's computations together. The walk goes
down the forest; what stands at one loop, its own computations and the loops inside it, is taken
in the old order of the first computation of each. -/
namespace LoopNest

def leastRank (rank : String → Nat) (last : Nat) (computations : List String) : Nat :=
  computations.foldr (fun c least => min (rank c) least) last

def joinBlocks (blocks : List (Nat × List String)) : List String :=
  (sortBy Prod.fst blocks).flatMap Prod.snd

/-- The computations of each loop of a row as one block, in the order in which the walk meets
them, with the rank of the first of them by the old order. -/
def Forest.blocks (rank : String → Nat) (last : Nat) : Forest → List (Nat × List String)
  | nil => []
  | cons _ own body rest =>
    let inside := joinBlocks (own.map (fun c => (rank c, [c])) ++ body.blocks rank last)
    (leastRank rank last inside, inside) :: rest.blocks rank last

namespace Nest

def walkOrder (n : Nest) : List String :=
  joinBlocks (n.loops.blocks (fun c => n.order.idxOf c) n.order.length)

/-- The nest with the walk's order as its execution order. Rows of loops keep their order. -/
def renumber (n : Nest) : Nest :=
  let walked := n.walkOrder
  { loops := n.loops.mapComputations (sortBy fun c => walked.idxOf c)
    computations := sortBy (fun c => walked.idxOf c.name) n.computations }

end Nest

end LoopNest
