import LoopNest.Loop
import LoopNest.Text.Quoted

/-! Positional parameters of actions and their text: `name:level` for a loop, or an integer, with
commas between several. -/
namespace LoopNest

/-- A positional parameter. -/
inductive Param where
  | loop (id : LoopId)
  | int (value : Int)
deriving DecidableEq

namespace Param

def text : Param → String
  | loop id => id.name ++ ":" ++ toString id.level
  | int value => toString value

/-- Writes a parameter as in messages, where its name stands in quotes. -/
def shown : Param → String
  | loop id =>
    "Iterator(IteratorId \x7b name: " ++ Text.quoted id.name ++ ", level: " ++
      toString id.level ++ " \x7d)"
  | int value => "Int(" ++ toString value ++ ")"

def splitLast? (c : Char) : List Char → Option (List Char × List Char)
  | [] => none
  | x :: xs =>
    match splitLast? c xs with
    | some (before, behind) => some (x :: before, behind)
    | none => if x = c then some ([], xs) else none

/-- Reads a parameter without white space at its ends. Its last colon stands between name and
level; without a colon it is an integer. -/
def ofTrimmed? (s : String) : Option Param :=
  match splitLast? ':' s.toList with
  | some ([], _) => none
  | some (name, level) =>
    (Text.unsigned? (Text.trim (String.ofList level))).map fun level =>
      loop ⟨Text.trim (String.ofList name), level⟩
  | none => (Text.signed? s).map int

/-- Reads a parameter. One that cannot be read is given back without white space at its ends. -/
def ofText (s : String) : Except String Param :=
  match ofTrimmed? (Text.trim s) with
  | some p => .ok p
  | none => .error (Text.trim s)

/-- Reads parameters with commas between them, passing over blank ones, up to the first that
cannot be read. -/
def listOfText (s : String) : Except String (List Param) :=
  (((s.toList.splitOn ',').map String.ofList).filter fun part => !Text.blank part).mapM ofText

end Param

end LoopNest
