import LoopNest.Action.Change
import LoopNest.Action.Tiling

/-! How changes are carried out on a nest. The execution order stays as it is here; it is renumbered
afterwards. -/
namespace LoopNest

/-- Whether a way down without computations and side branches leads to a loop: given what stands
at the loop where it starts. -/
def Forest.leadsTo (name : String) (own : List String) : Forest → Bool
  | .cons loop inner body .nil =>
    own.isEmpty && (loop.name == name || body.leadsTo name inner)
  | _ => false

namespace Nest

def adjust (n : Nest) (id : LoopId) (change : Loop → Loop) : Except Nest.Error Nest :=
  match n.entry? id.name with
  | some _ => .ok { n with loops := n.loops.adjust id.name change }
  | none => .error (.unknownLoop id.name)

def swappable (n : Nest) (outer inner : LoopId) : Bool :=
  match n.loops.find? outer.name with
  | some t => t.body.leadsTo inner.name t.computations
  | none => false

/-- Puts each of two loops in the other's place. Computations of loops on the way would end up
under both, so then nothing changes. -/
def interchange (n : Nest) (a b : LoopId) : Except Nest.Error Nest :=
  let (outer, inner) := if a.level < b.level then (a, b) else (b, a)
  if n.swappable outer inner then
    match n.entry? a.name, n.entry? b.name with
    | some first, some second =>
      let swap (loop : Loop) : Loop :=
        if loop.name = a.name then second.loop
        else if loop.name = b.name then first.loop
        else loop
      .ok { n with loops := n.loops.mapLoops swap }
    | none, _ => .error (.unknownLoop a.name)
    | _, none => .error (.unknownLoop b.name)
  else .ok n

/-- Moves what stands at the second loop to the first, behind what stands there, and takes the
second loop out. -/
def fuse (n : Nest) (a b : LoopId) : Except Nest.Error Nest :=
  match n.loops.find? b.name with
  | some removed =>
    let left := n.loops.erase b.name
    match left.find? a.name with
    | some _ =>
      .ok { n with loops := Forest.extend a.name removed.computations removed.body left }
    | none => .error (.unknownLoop a.name)
  | none => .error (.unknownLoop b.name)

end Nest

def Change.apply (n : Nest) : Change → Except Nest.Error Nest
  | tiling2D a b s t => n.tile [(a, s), (b, t)]
  | tiling3D a b c s t u => n.tile [(a, s), (b, t), (c, u)]
  | interchange a b => n.interchange a b
  | parallelization a => n.adjust a fun loop => { loop with parallel := true }
  | unrolling a f => n.adjust a fun loop => { loop with unroll := some f }
  | reversal a => n.adjust a fun loop => { loop with reversed := !loop.reversed }
  | fusion a b => n.fuse a b

end LoopNest
