import LoopNest.Proofs.Forest.Enclose
import LoopNest.Proofs.Nest.DepthFirst

/-! The walk over an edited forest. The walk looks at the computations at and inside each loop and
not at the loops, so it meets them in the same order when loops are changed where they stand or get
new loops around them. Renumbering then gives the order that it gives without the edit. -/
namespace LoopNest

theorem joinBlocks_singleton (b : Nat × List String) : joinBlocks [b] = b.2 := by
  simp [joinBlocks, sortBy]

namespace Forest

variable (rank : String → Nat) (last : Nat)

theorem blocks_append (f g : Forest) :
    (f ++ g).blocks rank last = f.blocks rank last ++ g.blocks rank last := by
  induction f with
  | nil => rfl
  | cons loop own body rest _ ih => simp only [cons_append, blocks, ih, List.cons_append]

theorem blocks_mapLoops (edit : Loop → Loop) (f : Forest) :
    (f.mapLoops edit).blocks rank last = f.blocks rank last := by
  induction f with
  | nil => rfl
  | cons loop own body rest ihBody ihRest => simp only [mapLoops, blocks, ihBody, ihRest]

/-- Loops around a single one have its block. -/
theorem blocks_nested (new : List Loop) (loop : Loop) (own : List String) (body : Forest) :
    (nested new (cons loop own body nil)).blocks rank last =
      (cons loop own body nil).blocks rank last := by
  induction new with
  | nil => rfl
  | cons first new ih =>
    have inner : nested (first :: new) (cons loop own body nil) =
        cons first [] (nested new (cons loop own body nil)) nil := rfl
    rw [inner, blocks, ih]
    simp only [List.map_nil, List.nil_append, blocks, joinBlocks_singleton]

theorem blocks_enclose (name : String) (new : List Loop) (f : Forest) :
    (f.enclose name new).blocks rank last = f.blocks rank last := by
  induction f with
  | nil => rfl
  | cons loop own body rest ihBody ihRest =>
    by_cases same : loop.name = name
    · rw [enclose, if_pos same, blocks_append, blocks_nested]
      simp only [blocks, List.cons_append, List.nil_append]
    · simp only [enclose, same, if_false, blocks, ihBody, ihRest]

end Forest

namespace Nest

open Forest

variable {n : Nest}

theorem Sound.mapLoops (h : n.Sound) {edit : Loop → Loop}
    (placed : Placed { n with loops := n.loops.mapLoops edit }) :
    Sound { n with loops := n.loops.mapLoops edit } := by
  refine ⟨placed, fun t mem => ?_⟩
  rw [subtrees_mapLoops, List.mem_map] at mem
  obtain ⟨s, stands, rfl⟩ := mem
  exact h.ranked s stands

theorem Sound.enclose (h : n.Sound) {name : String} {tiles : List Loop}
    (placed : Placed { n with loops := n.loops.enclose name tiles }) :
    Sound { n with loops := n.loops.enclose name tiles } := by
  refine ⟨placed, fun t mem => ?_⟩
  rcases own_enclose mem with none_own | ⟨s, stands, same⟩
  · rw [none_own]
    exact .nil
  · rw [same]
    exact h.ranked s stands

theorem Sound.renumber_of_blocks {f : Forest} (sound : Sound { n with loops := f })
    (blocks : ∀ rank last, f.blocks rank last = n.loops.blocks rank last) :
    renumber { n with loops := f } = { n.renumber with loops := f } := by
  have walk : walkOrder { n with loops := f } = n.walkOrder := congrArg joinBlocks (blocks _ _)
  have loops : (renumber { n with loops := f }).loops = f := sound.loops_renumber
  calc renumber { n with loops := f }
      = ⟨f, (renumber { n with loops := f }).computations⟩ := congrArg (Nest.mk · _) loops
    _ = { n.renumber with loops := f } := by simp only [renumber, walk]

end Nest
end LoopNest
