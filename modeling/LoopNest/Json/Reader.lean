import LoopNest.Json.Token

/-! Reading JSON text. Arrays and objects that are not closed yet wait on a list of frames, so
values may nest to any depth. -/
namespace LoopNest
namespace Json

/-- An array or object that is being read, its parts so far in reverse. -/
inductive Frame where
  | items (done : List Json)
  | members (done : List (Option String × Json)) (name : Option String)

def ofMembers (members : List (Option String × Json)) : Json :=
  match members.mapM fun m => m.1.map fun name => (name, m.2) with
  | some members => object members
  | none => foreign

/-- Reads tokens to their end. With no value at hand one must follow, else what may follow one
does. -/
def assemble? (frames : List Frame) (value : Option Json) (tokens : List Token) : Option Json :=
  match tokens, value, frames with
  | .word v :: tokens, none, frames => assemble? frames (some v) tokens
  | .str s :: tokens, none, frames =>
    assemble? frames (some (match s with
      | some s => str s
      | none => foreign)) tokens
  | .leftBracket :: .rightBracket :: tokens, none, frames =>
    assemble? frames (some (array [])) tokens
  | .leftBracket :: tokens, none, frames => assemble? (.items [] :: frames) none tokens
  | .leftBrace :: .rightBrace :: tokens, none, frames =>
    assemble? frames (some (object [])) tokens
  | .leftBrace :: .str name :: .colon :: tokens, none, frames =>
    assemble? (.members [] name :: frames) none tokens
  | .comma :: tokens, some v, .items done :: frames =>
    assemble? (.items (v :: done) :: frames) none tokens
  | .rightBracket :: tokens, some v, .items done :: frames =>
    assemble? frames (some (array (v :: done).reverse)) tokens
  | .comma :: .str next :: .colon :: tokens, some v, .members done name :: frames =>
    assemble? (.members ((name, v) :: done) next :: frames) none tokens
  | .rightBrace :: tokens, some v, .members done name :: frames =>
    assemble? frames (some (ofMembers ((name, v) :: done).reverse)) tokens
  | [], some v, [] => some v
  | _, _, _ => none

def ofText? (s : String) : Option Json := (tokens? [] s.toList).bind (assemble? [] none)

end Json
end LoopNest
