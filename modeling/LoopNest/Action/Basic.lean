import LoopNest.Nest.Outline
import LoopNest.Nest.Renumber
import LoopNest.Action.Apply
import LoopNest.Action.Rendering

/-! Actions: changes that are bound to a nest. Binding resolves the loops, finds the targets,
renders the program from the nest as it is and changes a copy of it. The nest itself never
changes, so to reject an action is to forget it. -/
namespace LoopNest

/-- What binding adds to an action. -/
structure Binding where
  nest : Nest
  targets : List String
  rendering : Rendering
deriving DecidableEq

/-- A change, perhaps limited to some computations, perhaps bound to a nest. -/
structure Action where
  change : Change
  /-- The computations given, if any. -/
  explicit : Option (List String) := none
  /-- What the last successful binding gave. -/
  binding : Option Binding := none
deriving DecidableEq

namespace Action

def form (a : Action) : Form := a.change.form

def checkExplicit (form : Form) : Option (List String) → Except Action.Error Unit
  | some [] => .error (.invalidParams form .noTargets)
  | _ => .ok ()

def ofParams (form : Form) (params : List Param) (explicit : Option (List String)) :
    Except Action.Error Action := do
  let change ← (Change.ofParams form params).mapError (.invalidParams form)
  checkExplicit form explicit
  return { change, explicit }

def targets (a : Action) : Option (List String) :=
  match a.binding with
  | some binding => some binding.targets
  | none => a.explicit

def nest? (a : Action) : Option Nest := a.binding.map Binding.nest

/-- The targets of a change of a nest: those given, which must be computations, or those that
the change is about. -/
def findTargets (n : Nest) (change : Change) :
    Option (List String) → Except Action.Error (List String)
  | some names => do
    checkExplicit change.form (some names)
    match names.find? fun name => (n.computation? name).isNone with
    | some name => .error (.notFound (.unknownComputation name))
    | none => .ok names
  | none => (change.targets n).mapError .notFound

def finish (form : Form) (changed : Except Nest.Error Nest) : Except Action.Error Nest :=
  match changed with
  | .error e => .error (.invalidResult form e)
  | .ok n =>
    match n.renumber.outline.fault? with
    | some fault => .error (.invalidResult form (.malformed fault))
    | none => .ok n.renumber

/-- Binds a change to a nest: gives the change with its loops resolved, and the binding. -/
def bindChange (n : Nest) (change : Change) (explicit : Option (List String)) :
    Except Action.Error (Change × Binding) := do
  let change ← (change.resolve n).mapError .notFound
  change.check n
  let targets ← findTargets n change explicit
  let rendering ← (change.render n targets).mapError .notFound
  let nest ← finish change.form (change.apply n)
  return (change, { nest, targets, rendering })

def bind (a : Action) (n : Nest) : Except Action.Error Action := do
  let (change, binding) ← bindChange n a.change a.explicit
  return { a with change, binding := some binding }

/-- Renders a bound action anew against a nest, with the targets that it has. -/
def rerender (a : Action) (n : Nest) : Except Action.Error Action :=
  match a.binding with
  | none => .error (.unbound a.form)
  | some binding => do
    let rendering ← (a.change.render n binding.targets).mapError .notFound
    return { a with binding := some { binding with rendering } }

def rendering (a : Action) : Except Action.Error Rendering :=
  match a.binding with
  | some binding => .ok binding.rendering
  | none => .error (.unbound a.form)

def text (a : Action) : String :=
  match a.binding with
  | some binding => binding.rendering.signature
  | none =>
    a.form.name ++ "(" ++ String.intercalate "," (a.change.params.map Param.text) ++ ")"

end Action

end LoopNest
