import LoopNest.Nest.Outline

/-! Declarations: a nest put down loop by loop, each behind the one that encloses it, and
computation by computation in execution order. -/
namespace LoopNest

structure LoopDeclaration where
  name : String
  parent : Option String
  lower : Bound
  upper : Bound
deriving DecidableEq

structure ComputationDeclaration where
  name : String
  loop : String
  expression : String
deriving DecidableEq

/-- One step of putting down a nest. -/
inductive Declaration where
  | loop (declared : LoopDeclaration)
  | computation (declared : ComputationDeclaration)
deriving DecidableEq

namespace Declaration

def loops (ds : List Declaration) : List LoopDeclaration :=
  ds.filterMap fun
    | loop declared => some declared
    | computation _ => none

def computations (ds : List Declaration) : List ComputationDeclaration :=
  ds.filterMap fun
    | loop _ => none
    | computation declared => some declared

/-- The first loop that repeats a name or whose parent is not among those before it. -/
def loopsError? (known : List String) : List LoopDeclaration → Option Nest.Error
  | [] => none
  | l :: ls =>
    if l.name ∈ known then some (.malformed (.duplicateLoop l.name))
    else
      match l.parent with
      | some parent =>
        if parent ∈ known then loopsError? (l.name :: known) ls
        else some (.unknownLoop parent)
      | none => loopsError? (l.name :: known) ls

def computationsError? (known seen : List String) :
    List ComputationDeclaration → Option Nest.Error
  | [] => none
  | c :: cs =>
    if c.loop ∉ known then some (.unknownLoop c.loop)
    else if c.name ∈ seen then some (.malformed (.duplicateComputation c.name))
    else computationsError? known (c.name :: seen) cs

/-- The first error: those of loops come before those of computations. -/
def error? (ds : List Declaration) : Option Nest.Error :=
  (loopsError? [] (loops ds)).or
    (computationsError? ((loops ds).map LoopDeclaration.name) [] (computations ds))

def levels (ls : List LoopDeclaration) : List (String × Nat) :=
  ls.foldl
    (fun placed l =>
      placed ++
        [(l.name, (l.parent.bind fun parent => (placed.lookup parent).map (· + 1)).getD 0)])
    []

def entry (ds : List Declaration) (l : LoopDeclaration) : Entry where
  loop := { name := l.name, lower := l.lower, upper := l.upper }
  level := ((levels (loops ds)).lookup l.name).getD 0
  parent := l.parent
  children :=
    ((loops ds).filter fun other => other.parent == some l.name).map LoopDeclaration.name
  computations :=
    ((computations ds).filter fun c => c.loop == l.name).map ComputationDeclaration.name

def outline (ds : List Declaration) : Outline where
  loops := Table.ofList ((loops ds).map fun l => (l.name, entry ds l))
  roots := ((loops ds).filter fun l => l.parent.isNone).map LoopDeclaration.name
  computations := Table.ofList ((computations ds).map fun c => (c.name, ⟨c.name, c.expression⟩))
  ranks := Table.ofList ((computations ds).map ComputationDeclaration.name).zipIdx
  innermost := Table.ofList ((computations ds).map fun c => (c.name, c.loop))

def nest? (ds : List Declaration) : Except Nest.Error Nest :=
  match error? ds with
  | some e => .error e
  | none => (outline ds).nest?

end Declaration

end LoopNest
