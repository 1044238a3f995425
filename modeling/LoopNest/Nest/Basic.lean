import LoopNest.Forest
import LoopNest.Sort
import LoopNest.Nest.Error

/-! Nests: the loops of a program, the computations that they execute, and the order in which the
computations execute. Questions about loops are answered from the way down to them, questions
about what a loop encloses from the forest inside it. -/
namespace LoopNest

/-- A loop together with its place: the names around it, inside it and executed by it. -/
structure Entry where
  loop : Loop
  level : Nat
  parent : Option String
  children : List String
  computations : List String
deriving DecidableEq

def Entry.id (e : Entry) : LoopId := ⟨e.loop.name, e.level⟩

def Forest.entries (level : Nat) (parent : Option String) : Forest → List Entry
  | nil => []
  | cons loop own body rest =>
    ⟨loop, level, parent, body.tops.map Loop.name, own⟩ ::
      (body.entries (level + 1) (some loop.name) ++ rest.entries level parent)

def pathIds (path : List Loop) : List LoopId :=
  path.zipIdx.map fun (loop, level) => ⟨loop.name, level⟩

/-- A program's loops and computations. -/
structure Nest where
  loops : Forest
  computations : List Computation
deriving DecidableEq

namespace Nest

instance : Inhabited Nest := ⟨⟨.nil, []⟩⟩

def order (n : Nest) : List String := n.computations.map Computation.name

def rank? (n : Nest) (computation : String) : Option Nat := n.order.idxOf? computation

/-- Sorts names by execution order. Names of no computation go last and keep their order. -/
def sortByRank (n : Nest) (names : List String) : List String :=
  sortBy (fun name => n.order.idxOf name) names

def entries (n : Nest) : List Entry := n.loops.entries 0 none

def entry? (n : Nest) (name : String) : Option Entry :=
  n.entries.find? fun e => e.loop.name == name

/-- The loop of an identifier: name and level must both fit. -/
def loop? (n : Nest) (id : LoopId) : Option Entry :=
  (n.entry? id.name).filter fun e => e.level == id.level

def contains (n : Nest) (id : LoopId) : Bool := (n.loop? id).isSome

def roots (n : Nest) : List LoopId := n.loops.tops.map fun loop => ⟨loop.name, 0⟩

def computation? (n : Nest) (name : String) : Option Computation :=
  n.computations.find? fun c => c.name == name

def encloses (n : Nest) (outer inner : String) : Bool :=
  match n.loops.pathTo? inner with
  | some path => path.dropLast.any fun loop => loop.name == outer
  | none => false

/-- The loops around a computation, outermost first. -/
def chain (n : Nest) (computation : String) : Except Nest.Error (List LoopId) :=
  match n.loops.chain? computation with
  | some path => .ok (pathIds path)
  | none => .error (.unknownComputation computation)

/-- The loop around a computation at a level, or its innermost loop if no level is given. -/
def loopOf (n : Nest) (computation : String) (level : Option Nat) : Except Nest.Error LoopId :=
  match n.chain computation with
  | .error e => .error e
  | .ok chain =>
    let level := level.getD (chain.length - 1)
    match chain[level]? with
    | some id => .ok id
    | none => .error (.levelTooDeep computation level)

/-- Turns an identifier into that of a loop: if it is none yet, its name is taken for a
computation's and its level picks the loop around it. -/
def resolve (n : Nest) (id : LoopId) : Except Nest.Error LoopId :=
  if n.contains id then .ok id else n.loopOf id.name (some id.level)

/-- The computations that a loop encloses or executes itself, in execution order. -/
def computationsUnder (n : Nest) (id : LoopId) : Except Nest.Error (List String) :=
  match n.contains id, n.loops.find? id.name with
  | true, some t => .ok (n.sortByRank (t.computations ++ t.body.computations))
  | _, _ => .error (.unknownLoopId id)

end Nest

end LoopNest
