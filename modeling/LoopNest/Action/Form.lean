import LoopNest.Text.Blank

/-! The seven forms of actions on a nest. -/
namespace LoopNest

/-- What an action does to loops. -/
inductive Form where
  | tiling2D
  | tiling3D
  | interchange
  | parallelization
  | unrolling
  | reversal
  | fusion
deriving DecidableEq

namespace Form

def all : List Form :=
  [tiling2D, tiling3D, interchange, parallelization, unrolling, reversal, fusion]

def name : Form → String
  | tiling2D => "tiling_2d"
  | tiling3D => "tiling_3d"
  | interchange => "interchange"
  | parallelization => "parallelization"
  | unrolling => "unrolling"
  | reversal => "reversal"
  | fusion => "fusion"

/-- How many loops an action puts around its targets. -/
def addedLoops : Form → Nat
  | tiling2D => 2
  | tiling3D => 3
  | _ => 0

def arity : Form → Nat
  | tiling2D => 4
  | tiling3D => 6
  | interchange | unrolling | fusion => 2
  | parallelization | reversal => 1

def ofName? (name : String) : Option Form := all.find? fun form => form.name == name

/-- The form that a text names: white space at its ends and the case of ASCII letters do not
count, and a hyphen stands for an underscore. -/
def ofText? (s : String) : Option Form :=
  ofName? ((Text.trim s).map fun c => if c = '-' then '_' else c.toLower)

end Form

end LoopNest
