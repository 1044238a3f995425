import LoopNest.Text.Digits

/-! JSON values, as far as descriptions and settings use them: integers, texts, lists and
records. -/
namespace LoopNest

/-- A JSON value. Members of an object keep their order and may repeat a name. -/
inductive Json where
  | null
  | bool (value : Bool)
  | int (value : Int)
  | str (value : String)
  | array (items : List Json)
  | object (members : List (String × Json))
  /-- A value that nothing here can hold: a number that is no integer literal, or a text or name
  with half a surrogate pair. -/
  | foreign

namespace Json

instance : Inhabited Json := ⟨null⟩

def str? : Json → Option String
  | str value => some value
  | _ => none

def bool? : Json → Option Bool
  | bool value => some value
  | _ => none

def signed? : Json → Option Int
  | int value => if Text.fitsSigned value then some value else none
  | _ => none

def unsigned? : Json → Option Nat
  | int (.ofNat value) => if Text.fitsUnsigned value then some value else none
  | _ => none

def array? {α : Type} (read : Json → Option α) : Json → Option (List α)
  | array items => items.mapM read
  | _ => none

def nullable? {α : Type} (read : Json → Option α) : Json → Option (Option α)
  | null => some none
  | value => (read value).map some

/-- The values of a record's fields, in the order of the names given. A record is an object, in
which other members are passed over and no name of a field may repeat, or an array of the values
of its first fields. -/
def fields? (names : List String) : Json → Option (List (Option Json))
  | object members =>
    if names.all fun name => (members.filter fun m => m.1 == name).length ≤ 1 then
      some (names.map fun name => members.lookup name)
    else none
  | array items =>
    if items.length ≤ names.length then
      some (items.map some ++ List.replicate (names.length - items.length) none)
    else none
  | _ => none

def required? {α : Type} (read : Json → Option α) (field : Option Json) : Option α :=
  field.bind read

def optional? {α : Type} (read : Json → Option α) (default : α) : Option Json → Option α
  | some value => read value
  | none => some default

end Json

end LoopNest
