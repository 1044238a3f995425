import LoopNest.Nest.Basic

/-! Tiling: new loops around a band of nested ones. Each tile loop counts the tiles of one loop
of the band. -/
namespace LoopNest

/-- A name that is not taken: the base, or the base with the least number from 1 on behind it
that makes it free. As many numbers as names are taken are enough. -/
def freshName (taken : List String) (base : String) : String :=
  if base ∉ taken then base
  else
    (((List.range taken.length).map fun k => base ++ toString (k + 1)).find? fun name =>
      name ∉ taken).getD base

/-- The number of tiles of `size` iterations that a loop's iterations fill: a number if both
bounds are known, else an expression. -/
def tileCount (l : Loop) (size : Factor) : Bound :=
  match l.extent? with
  | some extent => .concrete ((max extent 0 + size.word - 1) / size.word)
  | none =>
    .symbolic ("floor((" ++ l.upper.text ++ " - " ++ l.lower.text ++ " + " ++
      toString (size.val - 1) ++ ") / " ++ size.text ++ ")")

def tileLoop (taken : List String) (l : Loop) (size : Factor) : Loop where
  name := freshName taken (l.name ++ "_tile")
  lower := .concrete 0
  upper := tileCount l size

/-- The tile loops of a band, each with a name that neither the nest nor those before it use. -/
def tileLoops (taken : List String) : List (Loop × Factor) → List Loop
  | [] => []
  | (l, size) :: band =>
    let tile := tileLoop taken l size
    tile :: tileLoops (tile.name :: taken) band

namespace Nest

def isBand (n : Nest) : List LoopId → Bool
  | a :: b :: rest =>
    ((n.loop? b).any fun e => e.parent == some a.name) && n.isBand (b :: rest)
  | _ => true

def bandLoops (n : Nest) : List (LoopId × Factor) → Except Nest.Error (List (Loop × Factor))
  | [] => .ok []
  | (id, size) :: band =>
    match n.entry? id.name with
    | some e =>
      match n.bandLoops band with
      | .ok rest => .ok ((e.loop, size) :: rest)
      | .error e => .error e
    | none => .error (.unknownLoop id.name)

/-- Tiles the loops of a band, which are put in the order of their levels first. If they are not
nested directly in each other, nothing changes. -/
def tile (n : Nest) (band : List (LoopId × Factor)) : Except Nest.Error Nest :=
  let ordered := sortBy (fun part => part.1.level) band
  if n.isBand (ordered.map Prod.fst) then
    match n.bandLoops ordered with
    | .ok [] => .ok n
    | .ok ((outer, size) :: rest) =>
      let tiles := tileLoops n.loops.names ((outer, size) :: rest)
      .ok { n with loops := n.loops.enclose outer.name tiles }
    | .error e => .error e
  else .ok n

end Nest

end LoopNest
