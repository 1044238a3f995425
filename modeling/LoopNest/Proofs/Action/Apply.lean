import Mathlib.Logic.Equiv.Basic
import LoopNest.Action.Apply
import LoopNest.Proofs.Action.Tiling
import LoopNest.Proofs.Forest.Edit
import LoopNest.Proofs.Action.Check

/-! What changes do to a placed nest. A change whose loops stand in the nest and fit together never
fails: it changes loops where they stand, or puts tile loops around one, or moves what stands at one
loop to another. None of these loses or repeats a name. -/
namespace LoopNest

namespace Loop

/-- The loop that an exchange of two loops puts in the place of a loop. -/
def exchange (first second loop : Loop) : Loop :=
  if loop.name = first.name then second else if loop.name = second.name then first else loop

theorem name_exchange (first second loop : Loop) :
    (first.exchange second loop).name = Equiv.swap first.name second.name loop.name := by
  rw [exchange, Equiv.swap_apply_def]
  split
  · rfl
  · split <;> rfl

theorem exchange_comm {first second : Loop} (apart : first.name ≠ second.name) :
    first.exchange second = second.exchange first := by
  funext loop
  simp only [exchange]
  split
  · next same => rw [if_neg (same ▸ apart)]
  · rfl

end Loop

namespace Forest

theorem names_mapLoops (change : Loop → Loop) (f : Forest) :
    (f.mapLoops change).names = f.loops.map fun loop => (change loop).name := by
  rw [names, loops_mapLoops, List.map_map]
  rfl

theorem names_adjust {change : Loop → Loop} (named : ∀ loop, (change loop).name = loop.name)
    (name : String) (f : Forest) : (f.adjust name change).names = f.names := by
  rw [adjust, names_mapLoops]
  refine List.map_congr_left fun loop _ => ?_
  split
  · exact named loop
  · rfl

theorem nodup_names_exchange {f : Forest} (unique : f.names.Nodup) (first second : Loop) :
    (f.mapLoops (first.exchange second)).names.Nodup := by
  rw [names_mapLoops, List.map_congr_left fun loop _ => first.name_exchange second loop]
  have apart := unique.map (Equiv.swap first.name second.name).injective
  rwa [Forest.names, List.map_map] at apart

end Forest

namespace Nest

open Forest

variable {n : Nest}

theorem Placed.found (h : n.Placed) {id : LoopId} (holds : n.Holds id) :
    ∃ outer t, Way n.loops outer t ∧ t.loop.name = id.name ∧ outer.length = id.level ∧
      n.loops.find? id.name = some t ∧ n.entry? id.name = some (entryAt 0 none outer t) := by
  obtain ⟨outer, t, way, same, deep⟩ := holds
  exact ⟨outer, t, way, same, deep, (find?_eq_some_iff h.names).mpr ⟨way.mem_subtrees, same⟩,
    h.entry?_eq_some_iff.mpr ⟨outer, t, way, same, rfl⟩⟩

theorem Holds.mem_names {id : LoopId} (holds : n.Holds id) : id.name ∈ n.loops.names := by
  obtain ⟨outer, t, way, same, -⟩ := holds
  rw [← same]
  exact way.mem_names

theorem Placed.adjust_eq (h : n.Placed) {id : LoopId} (holds : n.Holds id) (change : Loop → Loop) :
    n.adjust id change = .ok { n with loops := n.loops.adjust id.name change } := by
  obtain ⟨_, _, -, -, -, -, found⟩ := h.found holds
  simp only [Nest.adjust, found]

theorem Placed.adjust (h : n.Placed) {id : LoopId} (holds : n.Holds id)
    {change : Loop → Loop} (kept : ∀ loop, (change loop).name = loop.name) :
    ∃ edit, n.adjust id change = .ok { n with loops := n.loops.mapLoops edit } ∧
      (n.loops.mapLoops edit).names.Nodup := by
  refine ⟨_, h.adjust_eq holds change, ?_⟩
  rw [← Forest.adjust, names_adjust kept]
  exact h.names

/-- The loops of an interchange, the one of lesser level first. -/
def ordered (a b : LoopId) : LoopId × LoopId := if a.level < b.level then (a, b) else (b, a)

theorem ordered_comm {a b : LoopId} (levels : a.level ≠ b.level) : ordered a b = ordered b a := by
  rcases Nat.lt_or_gt_of_ne levels with less | less
  · simp [Nest.ordered, less, Nat.lt_asymm less]
  · simp [Nest.ordered, less, Nat.lt_asymm less]

theorem interchange_of_not_swappable {a b : LoopId}
    (branches : ¬n.swappable (ordered a b).1 (ordered a b).2 = true) :
    n.interchange a b = .ok n := by
  unfold Nest.ordered at branches
  simp only [Nest.interchange, branches]
  rfl

theorem Placed.exchange (h : n.Placed) {a b : LoopId} (holdsA : n.Holds a) (holdsB : n.Holds b)
    (swaps : n.swappable (ordered a b).1 (ordered a b).2 = true) :
    ∃ s t, n.loops.find? a.name = some s ∧ n.loops.find? b.name = some t ∧
      n.interchange a b = .ok { n with loops := n.loops.mapLoops (s.loop.exchange t.loop) } := by
  obtain ⟨outerA, s, -, nameA, -, foundA, entryA⟩ := h.found holdsA
  obtain ⟨outerB, t, -, nameB, -, foundB, entryB⟩ := h.found holdsB
  refine ⟨s, t, foundA, foundB, ?_⟩
  unfold Nest.ordered at swaps
  simp only [Nest.interchange, swaps, if_true, entryA, entryB]
  simp only [← nameA, ← nameB]
  rfl

theorem Placed.interchange (h : n.Placed) {a b : LoopId} (holdsA : n.Holds a)
    (holdsB : n.Holds b) :
    ∃ edit, n.interchange a b = .ok { n with loops := n.loops.mapLoops edit } ∧
      (n.loops.mapLoops edit).names.Nodup := by
  by_cases swaps : n.swappable (ordered a b).1 (ordered a b).2 = true
  · obtain ⟨s, t, -, -, exchanged⟩ := h.exchange holdsA holdsB swaps
    exact ⟨_, exchanged, nodup_names_exchange h.names _ _⟩
  · refine ⟨id, ?_, ?_⟩
    · rw [mapLoops_id]
      exact interchange_of_not_swappable swaps
    · rw [mapLoops_id]
      exact h.names

theorem Placed.bandLoops (h : n.Placed) {band : List (LoopId × Factor)}
    (holds : ∀ part ∈ band, n.Holds part.1) :
    ∃ parts, n.bandLoops band = .ok parts ∧
      parts.map (fun part => part.1.name) = band.map fun part => part.1.name := by
  induction band with
  | nil => exact ⟨[], rfl, rfl⟩
  | cons part band ih =>
    obtain ⟨parts, found, names⟩ := ih fun part mem => holds part (List.mem_cons_of_mem _ mem)
    obtain ⟨outer, t, -, same, -, -, entry⟩ := h.found (holds part List.mem_cons_self)
    refine ⟨(t.loop, part.2) :: parts, ?_, ?_⟩
    · simp only [Nest.bandLoops, entry, found]
      rfl
    · rw [List.map_cons, List.map_cons, names, same]

/-- Tiling a band puts the tile loops of its loops around the outermost of them. -/
theorem Placed.tile_eq (h : n.Placed) {band rest : List (LoopId × Factor)}
    {first : LoopId × Factor} (holds : ∀ part ∈ band, n.Holds part.1)
    (ordered : sortBy (fun part => part.1.level) band = first :: rest)
    (linked : n.isBand ((first :: rest).map Prod.fst) = true) :
    ∃ parts, n.bandLoops (first :: rest) = .ok parts ∧ n.tile band =
        .ok { n with loops := n.loops.enclose first.1.name (tileLoops n.loops.names parts) } ∧
      parts.map (fun part => part.1.name) = (first :: rest).map fun part => part.1.name := by
  have perm := sortBy_perm (fun part : LoopId × Factor => part.1.level) band
  rw [ordered] at perm
  obtain ⟨parts, found, names⟩ := h.bandLoops fun part mem => holds part (perm.mem_iff.mp mem)
  cases parts with
  | nil => cases names
  | cons outer parts =>
    refine ⟨outer :: parts, found, ?_, names⟩
    rw [List.map_cons, List.map_cons, List.cons.injEq] at names
    simp only [Nest.tile, ordered, linked, if_true, found, names.1]

theorem Placed.tile_band (h : n.Placed) {band rest : List (LoopId × Factor)}
    {first : LoopId × Factor} (holds : ∀ part ∈ band, n.Holds part.1)
    (ordered : sortBy (fun part => part.1.level) band = first :: rest)
    (linked : n.isBand ((first :: rest).map Prod.fst) = true) :
    ∃ tiles, n.tile band = .ok { n with loops := n.loops.enclose first.1.name tiles } ∧
      tiles.length = band.length ∧ (tiles.map Loop.name ++ n.loops.names).Nodup := by
  obtain ⟨parts, -, tiled, names⟩ := h.tile_eq holds ordered linked
  refine ⟨_, tiled, ?_, nodup_tileLoops _ h.names⟩
  have length := congrArg List.length names
  rw [List.length_map, List.length_map, ← ordered, length_sortBy] at length
  rw [length_tileLoops, length]

theorem tile_of_not_band {band : List (LoopId × Factor)}
    (unlinked : ¬n.isBand ((sortBy (fun part => part.1.level) band).map Prod.fst) = true) :
    n.tile band = .ok n := by
  simp only [Nest.tile, unlinked]
  rfl

theorem Placed.tile (h : n.Placed) {band : List (LoopId × Factor)} (nonempty : band ≠ [])
    (holds : ∀ part ∈ band, n.Holds part.1) :
    n.tile band = .ok n ∨
      ∃ name tiles, n.tile band = .ok { n with loops := n.loops.enclose name tiles } ∧
        name ∈ n.loops.names ∧ (tiles.map Loop.name ++ n.loops.names).Nodup := by
  by_cases linked : n.isBand ((sortBy (fun part => part.1.level) band).map Prod.fst) = true
  · obtain ⟨first, rest, ordered, mem⟩ := exists_sortBy_eq_cons nonempty fun part => part.1.level
    rw [ordered] at linked
    obtain ⟨tiles, tiled, -, apart⟩ := h.tile_band holds ordered linked
    exact .inr ⟨first.1.name, tiles, tiled, (holds first mem).mem_names, apart⟩
  · exact .inl (tile_of_not_band linked)

theorem Placed.fuse (h : n.Placed) {a b : LoopId} (holdsA : n.Holds a)
    (holdsB : n.Holds b) (differ : a.name ≠ b.name) (level : a.level = b.level) :
    ∃ removed, n.loops.find? b.name = some removed ∧
      a.name ∈ (n.loops.erase b.name).names ∧
      n.fuse a b = .ok { n with
        loops := extend a.name removed.computations removed.body (n.loops.erase b.name) } := by
  obtain ⟨outerA, s, wayA, nameA, deepA, foundA, -⟩ := h.found holdsA
  obtain ⟨outerB, removed, wayB, nameB, deepB, foundB, -⟩ := h.found holdsB
  have outside : a.name ∉ removed.body.names := by
    intro inside
    rw [← map_name_subtrees, List.mem_map] at inside
    obtain ⟨s', mem, same⟩ := inside
    obtain ⟨between, below⟩ := exists_way mem
    obtain ⟨ways, -⟩ := wayA.eq_of_name_eq h.names (wayB.trans below) (nameA.trans same.symm)
    have lengths := congrArg List.length ways
    rw [List.length_append, List.length_cons] at lengths
    omega
  have left : a.name ∈ (n.loops.erase b.name).names := by
    have mem := (names_erase_perm h.names foundB).mem_iff.mp (holdsA.mem_names)
    rw [List.mem_cons, List.mem_append] at mem
    rcases mem with same | inside | left
    · exact absurd same differ
    · exact absurd inside outside
    · exact left
  obtain ⟨kept, found⟩ := exists_find? left
  refine ⟨removed, foundB, left, ?_⟩
  simp only [Nest.fuse, foundB, found]

end Nest

namespace Change

open Forest

variable {n : Nest}

/-- A change whose loops stand in the nest and fit together is carried out on the forest alone: by
an edit of loops where they stand, by new loops around one of them, or by a fusion. -/
theorem apply_cases (h : n.Placed) {c : Change} (holds : ∀ id ∈ c.loops, n.Holds id)
    (fits : c.Compatible n) :
    (∃ edit, c.apply n = .ok { n with loops := n.loops.mapLoops edit } ∧
      (n.loops.mapLoops edit).names.Nodup) ∨
    (∃ name tiles, c.apply n = .ok { n with loops := n.loops.enclose name tiles } ∧
      name ∈ n.loops.names ∧ (tiles.map Loop.name ++ n.loops.names).Nodup) ∨
    (∃ a b removed, c = fusion a b ∧ n.loops.find? b.name = some removed ∧
      a.name ∈ (n.loops.erase b.name).names ∧
      c.apply n = .ok { n with
        loops := extend a.name removed.computations removed.body (n.loops.erase b.name) }) := by
  have tiling {band : List (LoopId × Factor)} (applied : c.apply n = n.tile band)
      (nonempty : band ≠ []) (of : ∀ part ∈ band, part.1 ∈ c.loops) :
      (∃ edit, c.apply n = .ok { n with loops := n.loops.mapLoops edit } ∧
        (n.loops.mapLoops edit).names.Nodup) ∨
      (∃ name tiles, c.apply n = .ok { n with loops := n.loops.enclose name tiles } ∧
        name ∈ n.loops.names ∧ (tiles.map Loop.name ++ n.loops.names).Nodup) := by
    rw [applied]
    rcases h.tile nonempty fun part mem => holds _ (of part mem) with same | tiled
    · refine .inl ⟨id, ?_, ?_⟩
      · rw [same, mapLoops_id]
      · rw [mapLoops_id]
        exact h.names
    · exact .inr tiled
  cases c with
  | tiling2D a b s t =>
    have tiled := @tiling [(a, s), (b, t)] rfl (by simp) (by simp [loops])
    exact tiled.imp_right .inl
  | tiling3D a b c s t u =>
    have tiled := @tiling [(a, s), (b, t), (c, u)] rfl (by simp) (by simp [loops])
    exact tiled.imp_right .inl
  | interchange a b =>
    exact .inl (h.interchange (holds a (by simp [loops])) (holds b (by simp [loops])))
  | parallelization a => exact .inl (h.adjust (holds a (by simp [loops])) fun _ => rfl)
  | unrolling a f => exact .inl (h.adjust (holds a (by simp [loops])) fun _ => rfl)
  | reversal a => exact .inl (h.adjust (holds a (by simp [loops])) fun _ => rfl)
  | fusion a b =>
    obtain ⟨removed, found, left, fused⟩ := h.fuse (holds a (by simp [loops]))
      (holds b (by simp [loops])) fits.1 fits.2.1
    exact .inr (.inr ⟨a, b, removed, rfl, found, left, fused⟩)

end Change

namespace Nest

open Forest

variable {n : Nest}

/-- A placed nest stays placed when its forest is edited without losing or repeating a name. -/
theorem Placed.edit (h : n.Placed) {f : Forest} (names : f.names.Nodup)
    (computations : f.computations.Perm n.loops.computations) :
    Placed { n with loops := f } :=
  ⟨names, h.order, computations.trans h.listed⟩

/-- A change that passes the check succeeds and gives a placed nest with the computations as they were. -/
theorem Placed.apply (h : n.Placed) {c : Change} (holds : ∀ id ∈ c.loops, n.Holds id)
    (fits : c.Compatible n) :
    ∃ m, c.apply n = .ok m ∧ m.Placed ∧ m.computations = n.computations := by
  rcases Change.apply_cases h holds fits with ⟨edit, applied, names⟩ |
    ⟨name, tiles, applied, mem, apart⟩ | ⟨a, b, removed, -, found, left, applied⟩
  · refine ⟨_, applied, h.edit names ?_, rfl⟩
    rw [computations_mapLoops]
  · refine ⟨_, applied, h.edit ?_ ?_, rfl⟩
    · exact (names_enclose_perm h.names mem).nodup_iff.mpr apart
    · rw [computations_enclose]
  · have taken := names_erase_perm h.names found
    have unique := taken.nodup_iff.mp h.names
    have uniqueLeft : (n.loops.erase b.name).names.Nodup :=
      (List.nodup_append.mp (List.nodup_cons.mp unique).2).2.1
    refine ⟨_, applied, h.edit ?_ ?_, rfl⟩
    · refine (names_extend_perm uniqueLeft left _ _).nodup_iff.mpr ?_
      exact (List.nodup_cons.mp unique).2
    · refine (computations_extend_perm uniqueLeft left _ _).trans ?_
      exact (computations_erase_perm h.names found).symm

theorem Placed.of_apply (h : n.Placed) {c : Change} (holds : ∀ id ∈ c.loops, n.Holds id)
    (fits : c.Compatible n) {m : Nest} (applied : c.apply n = .ok m) :
    m.Placed ∧ m.computations = n.computations := by
  obtain ⟨m', applied', placed, same⟩ := h.apply holds fits
  rw [applied] at applied'
  cases applied'
  exact ⟨placed, same⟩

end Nest
end LoopNest
