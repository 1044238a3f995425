import LoopNest.Nest.Error
import LoopNest.Action.Form
import LoopNest.Action.Param

/-! What can be wrong with an action. -/
namespace LoopNest

/-- Why parameters do not make up an action of a form. -/
inductive ParamFault where
  | count (expected found : Nat)
  | notLoop (index : Nat) (found : Param)
  | notPositive (index : Nat) (found : Param)
  | noTargets
  | zeroTileSize
  | zeroUnrollFactor
deriving DecidableEq

def ParamFault.message : ParamFault → String
  | count expected found =>
    "expected " ++ toString expected ++ " parameters, got " ++ toString found
  | notLoop index found =>
    "parameter " ++ toString index ++ " must be an iterator, got Some(" ++ found.shown ++ ")"
  | notPositive index found =>
    "parameter " ++ toString index ++ " must be a positive integer, got Some(" ++
      found.shown ++ ")"
  | noTargets => "explicit computation list is empty"
  | zeroTileSize => "tile sizes must be positive"
  | zeroUnrollFactor => "unroll factor must be positive"

inductive Conflict where
  | sameLevel (a b : LoopId)
  | notNested (a b : LoopId)
  | sameLoop (a : LoopId)
  | differentLevels (a b : LoopId)
  | differentParents (a b : LoopId)
deriving DecidableEq

def Conflict.message : Conflict → String
  | sameLevel a b => a.text ++ " and " ++ b.text ++ " are at the same level"
  | notNested a b => a.text ++ " and " ++ b.text ++ " are not in one loop nest"
  | sameLoop a => "cannot fuse " ++ a.text ++ " with itself"
  | differentLevels a b => a.text ++ " and " ++ b.text ++ " are at different levels"
  | differentParents a b => a.text ++ " and " ++ b.text ++ " do not share a parent"

/-- Why an action cannot be made, bound or shown. -/
inductive Action.Error where
  | invalidParams (form : Form) (fault : ParamFault)
  | notFound (error : Nest.Error)
  | unbound (form : Form)
  | incompatible (form : Form) (conflict : Conflict)
  | invalidResult (form : Form) (error : Nest.Error)
  | unparsableParam (text : String)
  | unknownForm (text : String)
deriving DecidableEq

def Action.Error.message : Action.Error → String
  | invalidParams form fault => "invalid parameters for " ++ form.name ++ ": " ++ fault.message
  | notFound error => error.message
  | unbound form => form.name ++ " action has not been bound to a tree"
  | incompatible form conflict =>
    "incompatible iterators for " ++ form.name ++ ": " ++ conflict.message
  | invalidResult form error => form.name ++ " produced an invalid tree: " ++ error.message
  | unparsableParam text => "cannot parse action parameter " ++ ticked text
  | unknownForm text => "unknown action type " ++ ticked text

namespace Form

def ofText (s : String) : Except Action.Error Form :=
  match ofText? s with
  | some form => .ok form
  | none => .error (.unknownForm s)

end Form

def readParams (s : String) : Except Action.Error (List Param) :=
  (Param.listOfText s).mapError .unparsableParam

end LoopNest
