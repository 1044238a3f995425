import LoopNest.Action.Basic
import LoopNest.Backend
import LoopNest.Schedule.Settings

/-! Schedules: the actions accepted so far, the nest that they lead to and the program that they
add up to. Each action is bound to the nest that the ones before it leave. -/
namespace LoopNest

inductive Schedule.Error where
  | action (error : Action.Error)
  | backend (error : Backend.Error)
  | illegal (reason : String)
deriving DecidableEq

def Schedule.Error.message : Schedule.Error → String
  | action error => error.message
  | backend error => error.message
  | illegal reason => "schedule is not legal: " ++ reason

/-- Accepted actions with what they lead to. -/
structure Schedule where
  nest : Nest
  settings : Settings := {}
  actions : List Action := []
  program : String := ""
  legality : String := ""
deriving DecidableEq

namespace Schedule

/-- A schedule with one more action, given bound with its binding. -/
def extend (s : Schedule) (a : Action) (binding : Binding) : Schedule :=
  { s with
    nest := binding.nest
    actions := s.actions ++ [a]
    program := s.program ++ binding.rendering.program
    legality := s.legality ++ binding.rendering.legality }

def offer (s : Schedule) (a : Action) : Except Action.Error (Action × Schedule) := do
  let (change, binding) ← Action.bindChange s.nest a.change a.explicit
  let bound : Action := { a with change, binding := some binding }
  return (bound, s.extend bound binding)

def text (s : Schedule) : String :=
  "S(" ++ String.intercalate "," s.nest.order ++ ")=" ++
    String.intercalate "|" (s.actions.map Action.text)

def shown (s : Schedule) : String :=
  "Schedule \x7b actions: " ++ toString s.actions.length ++ ", config: " ++ s.settings.shown ++
    ", optim_str: " ++ Text.quoted s.program ++ " \x7d"

end Schedule

end LoopNest
