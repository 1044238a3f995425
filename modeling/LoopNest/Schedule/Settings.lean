import LoopNest.Json.Reader
import LoopNest.Json.Writer

/-! Settings of a schedule. -/
namespace LoopNest

/-- How a schedule asks its backend and logs. -/
structure Settings where
  runs : Nat := 1
  checkEach : Bool := false
  checkFirst : Bool := true
  warnRejected : Bool := true
deriving DecidableEq

namespace Settings

instance : Inhabited Settings := ⟨{}⟩

def fieldNames : List String :=
  ["execution_runs", "check_legality_per_action", "legality_before_execute", "log_rejections"]

def json (c : Settings) : Json :=
  .object (fieldNames.zip
    [.int c.runs, .bool c.checkEach, .bool c.checkFirst, .bool c.warnRejected])

def ofJson? (value : Json) : Option Settings :=
  match value.fields? fieldNames with
  | some [runs, checkEach, checkFirst, warnRejected] => do
    let preset : Settings := default
    let runs ← Json.optional? Json.unsigned? preset.runs runs
    let checkEach ← Json.optional? Json.bool? preset.checkEach checkEach
    let checkFirst ← Json.optional? Json.bool? preset.checkFirst checkFirst
    let warnRejected ← Json.optional? Json.bool? preset.warnRejected warnRejected
    some { runs, checkEach, checkFirst, warnRejected }
  | _ => none

def ofText? (s : String) : Option Settings := (Json.ofText? s).bind ofJson?

def shown (c : Settings) : String :=
  "ScheduleConfig \x7b " ++
    String.intercalate ", "
      ((fieldNames.zip
        [toString c.runs, toString c.checkEach, toString c.checkFirst,
          toString c.warnRejected]).map fun (name, value) => name ++ ": " ++ value) ++ " \x7d"

end Settings

end LoopNest
