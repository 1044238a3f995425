/-! Options on a command line: `--name value`, `--name=value`, `-n value`, `-nvalue`, and several
letters behind one hyphen. Words are taken from left to right; the first that does not fit ends
the reading, and so does a request for help or the version. -/
namespace LoopNest
namespace CommandLine

/-- Why a command line holds no request. -/
inductive Stop where
  | usage
  | help
  | version
deriving DecidableEq

inductive Takes where
  | nothing
  | once
  | value (hyphens : Bool) (accepts : String → Bool)
  | values
  | stop (why : Stop)

structure Switch where
  long : String
  short : Option Char
  takes : Takes

structure Given where
  long : String
  values : List String

/-- What has been read: options given, and the option whose values come next. -/
structure Reading where
  given : List Given := []
  pending : Option (Switch × List String) := none

def cut (c : Char) (cs : List Char) : List Char × Option (List Char) :=
  match cs.dropWhile (· != c) with
  | [] => (cs, none)
  | _ :: behind => (cs.takeWhile (· != c), some behind)

/-- Whether a word is an option, or the double hyphen that ends them. A single hyphen is none. -/
def looksLikeOption (word : String) : Bool :=
  match word.toList with
  | '-' :: _ :: _ => true
  | _ => false

namespace Reading

/-- Notes an option with its values; of those given once, a second one is refused. -/
def note (r : Reading) (s : Switch) (values : List String) : Except Stop Reading :=
  let noted : Reading := { given := ⟨s.long, values⟩ :: r.given }
  let repeated := r.given.any fun g => g.long == s.long
  match s.takes with
  | .nothing => .ok noted
  | .once => if repeated then .error .usage else .ok noted
  | .value _ accepts =>
    if repeated || !values.all accepts then .error .usage else .ok noted
  | .values =>
    .ok { noted with
      given := ⟨s.long, values.flatMap fun v => (v.toList.splitOn ',').map String.ofList⟩ ::
        r.given }
  | .stop why => .error why

def close (r : Reading) : Except Stop Reading :=
  match r.pending with
  | none => .ok r
  | some (_, []) => .error .usage
  | some (s, values) => ({ r with pending := none } : Reading).note s values

def take (r : Reading) (s : Switch) (attached : Option String) : Except Stop Reading :=
  match s.takes, attached with
  | .value _ _, some v | .values, some v => r.note s [v]
  | .value _ _, none | .values, none => .ok { r with pending := some (s, []) }
  | _, some _ => .error .usage
  | _, none => r.note s []

/-- Takes the letters behind one hyphen. What follows a letter that takes a value is the value,
with or without an equals sign in front. -/
def letters (switches : List Switch) (r : Reading) : List Char → Except Stop Reading
  | [] => .ok r
  | c :: rest =>
    match switches.find? fun s => s.short == some c with
    | none => .error .usage
    | some s =>
      match s.takes, rest with
      | .value _ _, '=' :: v | .values, '=' :: v => r.take s (some (String.ofList v))
      | .value _ _, v :: vs | .values, v :: vs => r.take s (some (String.ofList (v :: vs)))
      | _, _ =>
        match r.take s none with
        | .ok r => r.letters switches rest
        | .error why => .error why

def option (switches : List Switch) (r : Reading) (word : String) : Except Stop Reading :=
  match word.toList with
  | '-' :: '-' :: cs =>
    let (name, value) := cut '=' cs
    match switches.find? fun s => s.long.toList == name with
    | some s => r.take s (value.map String.ofList)
    | none => .error .usage
  | '-' :: cs => r.letters switches cs
  | _ => .error .usage

def word (switches : List Switch) (r : Reading) (w : String) : Except Stop Reading :=
  match r.close with
  | .error why => .error why
  | .ok r => if w ≠ "--" && looksLikeOption w then r.option switches w else .error .usage

end Reading

/-- Reads options to the end of the line. A double hyphen may close it. -/
def readOptions (switches : List Switch) (r : Reading) : List String → Except Stop (List Given)
  | [] => r.close.map Reading.given
  | w :: rest =>
    match r.pending with
    | some (s, values) =>
      match s.takes with
      | .value hyphens _ =>
        if hyphens || !looksLikeOption w then
          match ({ r with pending := none } : Reading).note s [w] with
          | .ok r => readOptions switches r rest
          | .error why => .error why
        else .error .usage
      | _ =>
        if looksLikeOption w then
          if w = "--" && rest.isEmpty then r.close.map Reading.given
          else
            match r.word switches w with
            | .ok r => readOptions switches r rest
            | .error why => .error why
        else readOptions switches { r with pending := some (s, values ++ [w]) } rest
    | none =>
      if w = "--" && rest.isEmpty then .ok r.given
      else
        match r.word switches w with
        | .ok r => readOptions switches r rest
        | .error why => .error why

end CommandLine
end LoopNest
