import LoopNest.Nest.Outline

/-! Descriptions of programs: every loop with its bounds and its place, every computation with
the loops around it. A description is loaded by laying it out as an outline; what is wrong with
its names and chains is found before, what is wrong with its links by the outline. -/
namespace LoopNest

structure LoopItem where
  name : String
  level : Nat
  lower : Bound := .concrete 0
  upper : Bound
  parent : Option String := none
  /-- The loops directly inside it; if empty, those that name it as their parent. -/
  children : List String := []
deriving DecidableEq

structure ComputationItem where
  name : String
  /-- Its place in the execution order; only which of two is smaller matters. -/
  order : Nat
  loops : List String
  expression : String := ""
deriving DecidableEq

/-- A program as described. -/
structure Description where
  name : String := ""
  loops : List LoopItem
  computations : List ComputationItem
deriving DecidableEq

namespace Description

def loopNames (d : Description) : List String := d.loops.map LoopItem.name

/-- The loops directly inside a loop: those that it lists, else those that name it. -/
def childrenOf (d : Description) (item : LoopItem) : List String :=
  if item.children.isEmpty then
    (d.loops.filter fun other => other.parent == some item.name).map LoopItem.name
  else item.children

def ranked (d : Description) : List ComputationItem :=
  sortBy ComputationItem.order d.computations

def parentError? (d : Description) (item : LoopItem) : Option Nest.Error :=
  match item.parent with
  | some parent => if parent ∈ d.loopNames then none else some (.unknownLoop parent)
  | none => none

/-- Whether names lead down from `parent` loop by loop. -/
def chainError? (d : Description) (computation : String) :
    Option String → List String → Option Nest.Error
  | _, [] => none
  | parent, name :: names =>
    match d.loops.find? fun item => item.name == name with
    | none => some (.unknownLoop name)
    | some item =>
      if item.parent = parent then d.chainError? computation (some name) names
      else some (.malformed (.brokenChain computation name))

def computationsError? (d : Description) (seen : List String) :
    List ComputationItem → Option Nest.Error
  | [] => none
  | c :: cs =>
    match d.chainError? c.name none c.loops with
    | some e => some e
    | none =>
      if c.loops.isEmpty then some (.malformed (.noLoops c.name))
      else if c.name ∈ seen then some (.malformed (.duplicateComputation c.name))
      else d.computationsError? (c.name :: seen) cs

def error? (d : Description) : Option Nest.Error :=
  ((firstRepeated? d.loopNames).map fun name => .malformed (.duplicateLoop name)).or <|
  (d.loops.findSome? d.parentError?).or <|
  (if (d.computations.map ComputationItem.order).Nodup then none
    else some (.malformed .sharedOrder)).or <|
  d.computationsError? [] d.ranked

def entry (d : Description) (item : LoopItem) : Entry where
  loop := { name := item.name, lower := item.lower, upper := item.upper }
  level := item.level
  parent := item.parent
  children := d.childrenOf item
  computations :=
    (d.ranked.filter fun c => c.loops.getLast? == some item.name).map ComputationItem.name

def outline (d : Description) : Outline where
  loops := Table.ofList (d.loops.map fun item => (item.name, d.entry item))
  roots := (d.loops.filter fun item => item.parent.isNone).map LoopItem.name
  computations := Table.ofList (d.ranked.map fun c => (c.name, ⟨c.name, c.expression⟩))
  ranks := Table.ofList (d.ranked.map ComputationItem.name).zipIdx
  innermost := Table.ofList (d.ranked.filterMap fun c =>
    c.loops.getLast?.map fun loop => (c.name, loop))

def nest? (d : Description) : Except Nest.Error Nest :=
  match d.error? with
  | some e => .error e
  | none => d.outline.nest?

end Description

end LoopNest
