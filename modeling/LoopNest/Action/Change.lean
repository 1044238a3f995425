import LoopNest.Nest.Basic
import LoopNest.Action.Error

/-! Changes: what an action is to do, with the loops and numbers it takes. -/
namespace LoopNest

/-- A form with its parameters. -/
inductive Change where
  | tiling2D (a b : LoopId) (sizeA sizeB : Factor)
  | tiling3D (a b c : LoopId) (sizeA sizeB sizeC : Factor)
  | interchange (a b : LoopId)
  | parallelization (a : LoopId)
  | unrolling (a : LoopId) (factor : Factor)
  | reversal (a : LoopId)
  | fusion (a b : LoopId)
deriving DecidableEq

def Factor.ofWord? (w : UInt32) : Option Factor :=
  if h : 0 < w.toNat then some ⟨w.toNat, h, w.toNat_lt⟩ else none

namespace Param

def asLoop (index : Nat) : Param → Except ParamFault LoopId
  | loop id => .ok id
  | int value => .error (.notLoop index (int value))

def asFactor (index : Nat) : Param → Except ParamFault Factor
  | loop id => .error (.notPositive index (loop id))
  | int value =>
    match Factor.ofInt? value with
    | some f => .ok f
    | none => .error (.notPositive index (int value))

end Param

namespace Change

def form : Change → Form
  | tiling2D .. => .tiling2D
  | tiling3D .. => .tiling3D
  | interchange .. => .interchange
  | parallelization .. => .parallelization
  | unrolling .. => .unrolling
  | reversal .. => .reversal
  | fusion .. => .fusion

def loops : Change → List LoopId
  | tiling2D a b _ _ | interchange a b | fusion a b => [a, b]
  | tiling3D a b c _ _ _ => [a, b, c]
  | parallelization a | unrolling a _ | reversal a => [a]

def factors : Change → List Factor
  | tiling2D _ _ s t => [s, t]
  | tiling3D _ _ _ s t u => [s, t, u]
  | unrolling _ f => [f]
  | interchange .. | parallelization .. | reversal .. | fusion .. => []

def params (c : Change) : List Param :=
  c.loops.map .loop ++ c.factors.map fun f => .int f.val

/-- The change of a form with positional parameters. Their number is looked at first, then the
loops, then the numbers. -/
def ofParams : Form → List Param → Except ParamFault Change
  | .tiling2D, [a, b, s, t] => do
    return tiling2D (← a.asLoop 0) (← b.asLoop 1) (← s.asFactor 2) (← t.asFactor 3)
  | .tiling3D, [a, b, c, s, t, u] => do
    return tiling3D (← a.asLoop 0) (← b.asLoop 1) (← c.asLoop 2) (← s.asFactor 3)
      (← t.asFactor 4) (← u.asFactor 5)
  | .interchange, [a, b] => do return interchange (← a.asLoop 0) (← b.asLoop 1)
  | .parallelization, [a] => do return parallelization (← a.asLoop 0)
  | .unrolling, [a, f] => do return unrolling (← a.asLoop 0) (← f.asFactor 1)
  | .reversal, [a] => do return reversal (← a.asLoop 0)
  | .fusion, [a, b] => do return fusion (← a.asLoop 0) (← b.asLoop 1)
  | form, params => .error (.count form.arity params.length)

def tile2D (a b : LoopId) (s t : UInt32) : Except Action.Error Change :=
  match Factor.ofWord? s, Factor.ofWord? t with
  | some s, some t => .ok (tiling2D a b s t)
  | _, _ => .error (.invalidParams .tiling2D .zeroTileSize)

def tile3D (a b c : LoopId) (s t u : UInt32) : Except Action.Error Change :=
  match Factor.ofWord? s, Factor.ofWord? t, Factor.ofWord? u with
  | some s, some t, some u => .ok (tiling3D a b c s t u)
  | _, _, _ => .error (.invalidParams .tiling3D .zeroTileSize)

def unroll (a : LoopId) (f : UInt32) : Except Action.Error Change :=
  match Factor.ofWord? f with
  | some f => .ok (unrolling a f)
  | none => .error (.invalidParams .unrolling .zeroUnrollFactor)

def resolve (n : Nest) : Change → Except Nest.Error Change
  | tiling2D a b s t => do return tiling2D (← n.resolve a) (← n.resolve b) s t
  | tiling3D a b c s t u => do
    return tiling3D (← n.resolve a) (← n.resolve b) (← n.resolve c) s t u
  | interchange a b => do return interchange (← n.resolve a) (← n.resolve b)
  | parallelization a => do return parallelization (← n.resolve a)
  | unrolling a f => do return unrolling (← n.resolve a) f
  | reversal a => do return reversal (← n.resolve a)
  | fusion a b => do return fusion (← n.resolve a) (← n.resolve b)

/-- Whether the loops of a change fit together: those of an interchange must be nested, those of
a fusion must be different siblings. -/
def check (n : Nest) : Change → Except Action.Error Unit
  | interchange a b =>
    if a.level = b.level then .error (.incompatible .interchange (.sameLevel a b))
    else if n.encloses a.name b.name || n.encloses b.name a.name then .ok ()
    else .error (.incompatible .interchange (.notNested a b))
  | fusion a b =>
    if a.name = b.name then .error (.incompatible .fusion (.sameLoop a))
    else if a.level ≠ b.level then .error (.incompatible .fusion (.differentLevels a b))
    else
      match n.loop? a, n.loop? b with
      | some first, some second =>
        if first.parent = second.parent then .ok ()
        else .error (.incompatible .fusion (.differentParents a b))
      | none, _ => .error (.notFound (.unknownLoopId a))
      | _, none => .error (.notFound (.unknownLoopId b))
  | _ => .ok ()

def outermost? : List LoopId → Option LoopId
  | [] => none
  | a :: rest =>
    match outermost? rest with
    | some b => if b.level < a.level then some b else some a
    | none => some a

/-- The computations that a change is about if none are given: those under either loop of a
fusion, else those under the outermost loop, in execution order. -/
def targets (n : Nest) (c : Change) : Except Nest.Error (List String) :=
  match c with
  | fusion a b => do
    return n.sortByRank ((← n.computationsUnder a) ++ (← n.computationsUnder b))
  | c =>
    match outermost? c.loops with
    | some id => n.computationsUnder id
    | none => .ok []

end Change

end LoopNest
