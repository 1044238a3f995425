import LoopNest.Description.Basic
import LoopNest.Json.Reader
import LoopNest.Json.Writer

/-! The JSON form of descriptions. Members are written in a fixed order and read in any; a bound
is an integer or, taken as it is, a text. -/
namespace LoopNest

def Bound.json : Bound → Json
  | concrete value => .int value.toInt
  | symbolic text => .str text

/-- Reads a bound. A text stays symbolic even if it looks like an integer. -/
def Bound.ofJson? : Json → Option Bound
  | .str text => some (symbolic text)
  | value => value.signed?.map fun v => concrete (.ofInt v)

namespace LoopItem

def fieldNames : List String :=
  ["name", "level", "lower_bound", "upper_bound", "parent", "child_iterators"]

def json (item : LoopItem) : Json :=
  .object (fieldNames.zip
    [.str item.name, .int item.level, item.lower.json, item.upper.json,
      (match item.parent with
        | some parent => .str parent
        | none => .null),
      .array (item.children.map .str)])

def ofJson? (value : Json) : Option LoopItem :=
  match value.fields? fieldNames with
  | some [name, level, lower, upper, parent, children] => do
    let name ← Json.required? Json.str? name
    let level ← Json.required? Json.unsigned? level
    let lower ← Json.optional? Bound.ofJson? default lower
    let upper ← Json.required? Bound.ofJson? upper
    let parent ← Json.optional? (Json.nullable? Json.str?) none parent
    let children ← Json.optional? (Json.array? Json.str?) [] children
    some { name, level, lower, upper, parent, children }
  | _ => none

end LoopItem

namespace ComputationItem

def fieldNames : List String := ["name", "absolute_order", "iterators", "expression"]

def json (item : ComputationItem) : Json :=
  .object (fieldNames.zip
    [.str item.name, .int item.order, .array (item.loops.map .str), .str item.expression])

def ofJson? (value : Json) : Option ComputationItem :=
  match value.fields? fieldNames with
  | some [name, order, loops, expression] => do
    let name ← Json.required? Json.str? name
    let order ← Json.required? Json.unsigned? order
    let loops ← Json.required? (Json.array? Json.str?) loops
    let expression ← Json.optional? Json.str? "" expression
    some { name, order, loops, expression }
  | _ => none

end ComputationItem

namespace Description

def fieldNames : List String := ["name", "iterators", "computations"]

def json (d : Description) : Json :=
  .object (fieldNames.zip
    [.str d.name, .array (d.loops.map LoopItem.json),
      .array (d.computations.map ComputationItem.json)])

def ofJson? (value : Json) : Option Description :=
  match value.fields? fieldNames with
  | some [name, loops, computations] => do
    let name ← Json.optional? Json.str? "" name
    let loops ← Json.required? (Json.array? LoopItem.ofJson?) loops
    let computations ← Json.required? (Json.array? ComputationItem.ofJson?) computations
    some { name, loops, computations }
  | _ => none

def ofText (s : String) : Except Nest.Error Description :=
  match (Json.ofText? s).bind ofJson? with
  | some d => .ok d
  | none => .error .notJson

end Description

namespace Nest

def ofText (s : String) : Except Nest.Error Nest :=
  match Description.ofText s with
  | .ok d => d.nest?
  | .error e => .error e

/-- The nest of a description in a file, given the file's bytes, if there is one. -/
def ofFile (content : Option ByteArray) : Except Nest.Error Nest :=
  match content with
  | none => .error (.unreadable .missing)
  | some bytes =>
    match String.fromUTF8? bytes with
    | some s => ofText s
    | none => .error (.unreadable .notText)

end Nest

end LoopNest
