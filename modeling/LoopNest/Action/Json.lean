import LoopNest.Action.Form
import LoopNest.Action.Param
import LoopNest.Json.Reader
import LoopNest.Json.Writer

/-! The JSON forms of action forms, identifiers and parameters. -/
namespace LoopNest

def Form.json (form : Form) : Json := .str form.name

/-- Reads a form: its name, or an object of that name and null. -/
def Form.ofJson? : Json → Option Form
  | .str name => ofName? name
  | .object [(name, .null)] => ofName? name
  | _ => none

namespace LoopId

def fieldNames : List String := ["name", "level"]

def json (id : LoopId) : Json := .object (fieldNames.zip [.str id.name, .int id.level])

def ofJson? (value : Json) : Option LoopId :=
  match value.fields? fieldNames with
  | some [name, level] => do
    let name ← Json.required? Json.str? name
    let level ← Json.required? Json.unsigned? level
    some { name, level }
  | _ => none

end LoopId

namespace Param

def json : Param → Json
  | loop id => .object [("Iterator", id.json)]
  | int value => .object [("Int", .int value)]

def ofJson? : Json → Option Param
  | .object [(name, value)] =>
    if name = "Iterator" then (LoopId.ofJson? value).map loop
    else if name = "Int" then value.signed?.map int
    else none
  | _ => none

end Param

end LoopNest
