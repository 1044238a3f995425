import LoopNest.Action.Basic
import LoopNest.Action.Candidates
import LoopNest.CommandLine.Options
import LoopNest.Description.Json

/-! The command line: a file with a description, and what to do with the nest in it. -/
namespace LoopNest
namespace CommandLine

def version : String := "0.1.0"

inductive Command where
  | sections
  | candidates (form : Form)
  | apply (form : Form) (params : String) (targets : Option (List String)) (showNest : Bool)
deriving DecidableEq

structure Request where
  path : String
  command : Command
deriving DecidableEq

/-- What a run leaves: an exit code and the texts of the two output streams. -/
structure Result where
  code : Nat
  output : String
  errors : String
deriving DecidableEq

def globalSwitches : List Switch :=
  [⟨"verbose", some 'v', .nothing⟩, ⟨"quiet", some 'q', .once⟩, ⟨"help", some 'h', .stop .help⟩]

def mainSwitches : List Switch := globalSwitches ++ [⟨"version", some 'V', .stop .version⟩]

def formSwitch : Switch :=
  ⟨"action", some 'a', .value false fun v => (Form.ofText? v).isSome⟩

def commandSwitches : String → Option (List Switch)
  | "sections" => some globalSwitches
  | "candidates" => some (formSwitch :: globalSwitches)
  | "apply" =>
    some (globalSwitches ++
      [formSwitch, ⟨"params", some 'p', .value true fun _ => true⟩, ⟨"comps", none, .values⟩,
        ⟨"show-tree", none, .once⟩])
  | _ => none

def valuesOf (given : List Given) (long : String) : Option (List String) :=
  match given.filter fun g => g.long == long with
  | [] => none
  | found => some (found.reverse.flatMap Given.values)

def formOf (given : List Given) : Except Stop Form :=
  match (valuesOf given formSwitch.long).bind fun values => values.head?.bind Form.ofText? with
  | some form => .ok form
  | none => .error .usage

def commandOf (name : String) (given : List Given) : Except Stop Command :=
  match name with
  | "sections" => .ok .sections
  | "candidates" => (formOf given).map .candidates
  | _ =>
    match formOf given, (valuesOf given "params").bind List.head? with
    | .ok form, some params =>
      .ok (.apply form params (valuesOf given "comps") (valuesOf given "show-tree").isSome)
    | _, _ => .error .usage

/-- What the words behind `help` lead to: they may name one command, or `help` itself. -/
def helpOn : List String → Stop
  | [] => .help
  | [name] => if name = "help" || (commandSwitches name).isSome then .help else .usage
  | _ => .usage

/-- Reads the words in front of the command, with the options and the path met so far, and then
the command with its options. A path must not be empty, which counts only when no request for help
on a command comes right behind it. -/
def readMain (r : Reading) (path : Option String) : List String → Except Stop Request
  | [] => .error .usage
  | w :: rest =>
    if w = "help" then .error (helpOn rest)
    else
      match commandSwitches w with
      | some switches => do
        let given ← readOptions switches {} rest
        let command ← commandOf w given
        match path with
        | some path => if path = "" then .error .usage else return { path, command }
        | none => .error .usage
      | none =>
        if w = "--" || path = some "" then .error .usage
        else if looksLikeOption w then
          match r.option mainSwitches w with
          | .ok r => readMain r path rest
          | .error why => .error why
        else if path.isSome then .error .usage
        else readMain r (some w) rest

def read (words : List String) : Except Stop Request := readMain {} none words

def idLine (separator : String) (ids : List LoopId) : String :=
  "  " ++ String.intercalate separator (ids.map LoopId.text) ++ "\n"

def listing (separator : String) (lists : List (LoopId × List (List LoopId))) : String :=
  String.join (lists.map fun (root, lines) =>
    root.text ++ ":\n" ++ String.join (lines.map (idLine separator)))

def sectionListing (n : Nest) : String := listing " -> " n.sections

def complaint (message : String) (cause : Option String) : String :=
  "Error: " ++ message ++
    (match cause with
      | some cause => "\n\nCaused by:\n    " ++ cause
      | none => "") ++ "\n"

def failed (message : String) (cause : Option String := none) : Result :=
  { code := 1, output := "", errors := complaint message cause }

def applied (n : Nest) (form : Form) (params : String) (targets : Option (List String))
    (showNest : Bool) : Result :=
  match readParams params with
  | .error e => failed "Failed to parse --params" (some e.message)
  | .ok params =>
    match Action.ofParams form params targets with
    | .error e => failed e.message
    | .ok action =>
      match Action.bindChange n action.change action.explicit with
      | .error e => failed ("Failed to bind " ++ action.text) (some e.message)
      | .ok (_, binding) =>
        { code := 0
          output := binding.rendering.signature ++ "\n" ++ binding.rendering.program ++
            (if showNest then sectionListing binding.nest else "")
          errors := "" }

def Command.run (n : Nest) : Command → Result
  | sections => { code := 0, output := sectionListing n, errors := "" }
  | candidates form => { code := 0, output := listing " " (form.candidates n), errors := "" }
  | apply form params targets showNest => applied n form params targets showNest

/-- Carries out a request, given the bytes of the file at its path, if there is one. -/
def Request.run (r : Request) (content : Option ByteArray) : Result :=
  match Nest.ofFile content with
  | .ok n => r.command.run n
  | .error e =>
    failed ("Failed to load program structure: " ++ Text.quoted r.path) (some e.message)

def usage : String :=
  "Usage: looptree [-v] [-q] FILE COMMAND\n\n" ++
  "Commands:\n" ++
  "  sections\n" ++
  "  candidates --action ACTION\n" ++
  "  apply --action ACTION --params PARAMS [--comps COMPS] [--show-tree]\n"

def Stop.result : Stop → Result
  | usage => { code := 2, output := "", errors := CommandLine.usage }
  | help => { code := 0, output := CommandLine.usage, errors := "" }
  | version => { code := 0, output := "looptree " ++ CommandLine.version ++ "\n", errors := "" }

end CommandLine
end LoopNest
