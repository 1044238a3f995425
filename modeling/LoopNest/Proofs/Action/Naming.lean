import Mathlib.Data.List.Dedup
import LoopNest.Proofs.Action.Levels
import LoopNest.Proofs.Nest.Inside
import LoopNest.Proofs.Reachable

/-! Which names tile loops get. A taken base is followed by the first number that makes it free,
and counting up comes to such a number, since only so many names are taken. A band is named loop by
loop, but each tile loop gets the name that it would get alone: two loops have bases that never
meet, whatever numbers follow them. -/
namespace LoopNest

open Forest

/-- Counting up from a number, the first number that makes a base free when it stands behind it. -/
inductive FirstFree (taken : List String) (base : String) : Nat → Nat → Prop where
  | here {k} (free : base ++ toString k ∉ taken) : FirstFree taken base k k
  | next {k first} (isTaken : base ++ toString k ∈ taken)
    (later : FirstFree taken base (k + 1) first) : FirstFree taken base k first

theorem firstFree_of_least {taken : List String} {base : String} {k count : Nat}
    (free : base ++ toString (k + count) ∉ taken)
    (least : ∀ j < count, base ++ toString (k + j) ∈ taken) :
    FirstFree taken base k (k + count) := by
  induction count generalizing k with
  | zero => exact .here free
  | succ count ih =>
    have shift (j : Nat) : k + (j + 1) = k + 1 + j := Nat.add_right_comm k j 1
    rw [shift] at free ⊢
    refine .next (least 0 (Nat.zero_lt_succ _)) (ih free fun j less => ?_)
    rw [← shift]
    exact least (j + 1) (Nat.succ_lt_succ less)

/-- Counting up from 1 ends at a number that is not above that of the names that are taken. -/
theorem exists_firstFree {taken : List String} {base : String} (mem : base ∈ taken) :
    ∃ k, FirstFree taken base 1 k ∧ freshName taken base = base ++ toString k ∧
      1 ≤ k ∧ k ≤ taken.dedup.length ∧ ∀ j, 1 ≤ j → j < k → base ++ toString j ∈ taken := by
  obtain ⟨k, fresh, free, least⟩ := exists_freshName mem
  refine ⟨1 + k, ?_, ?_, Nat.le_add_right 1 k, ?_, fun j pos less => ?_⟩
  · refine firstFree_of_least ?_ fun j less => ?_
    · rwa [Nat.add_comm]
    · rw [Nat.add_comm]
      exact least j less
  · rw [fresh, Nat.add_comm]
  · rw [Nat.add_comm]
    exact lt_length_of_variants (List.mem_dedup.mpr mem) fun j less =>
      List.mem_dedup.mpr (least j less)
  · obtain ⟨i, rfl⟩ := Nat.exists_eq_add_of_le' pos
    exact least i (by omega)

theorem tileLoops_eq_map {taken : List String} {band : List (Loop × Factor)}
    (differ : (band.map fun part => part.1.name).Nodup) :
    tileLoops taken band = band.map fun part => tileLoop taken part.1 part.2 := by
  induction band with
  | nil => rfl
  | cons part band ih =>
    rw [List.map_cons, List.nodup_cons] at differ
    rw [tileLoops, List.map_cons, ← ih differ.2]
    refine congrArg _ (tileLoops_congr fun other mem name stems => ?_)
    rw [List.mem_cons, or_iff_right_iff_imp]
    rintro rfl
    have same : part.1.name = other.1.name :=
      stem_tile_injective ((stem_freshName taken _).symm.trans stems)
    exact absurd (same ▸ List.mem_map_of_mem mem) differ.1

namespace Nest

theorem Placed.map_name_tile {n : Nest} (h : n.Placed) {band rest : List (LoopId × Factor)}
    {first : LoopId × Factor} (holds : ∀ part ∈ band, n.Holds part.1)
    (ordered : sortBy (fun part => part.1.level) band = first :: rest)
    (linked : n.isBand ((first :: rest).map Prod.fst) = true) :
    ∃ tiles, n.tile band = .ok { n with loops := n.loops.enclose first.1.name tiles } ∧
      tiles.map Loop.name =
        ((first :: rest).map fun part => freshName n.loops.names (part.1.name ++ "_tile")) ∧
      (tiles.map Loop.name ++ n.loops.names).Nodup := by
  obtain ⟨parts, -, tiled, names⟩ := h.tile_eq holds ordered linked
  refine ⟨_, tiled, ?_, nodup_tileLoops parts h.names⟩
  have holdsIds : ∀ id ∈ (first :: rest).map Prod.fst, n.Holds id := by
    rw [← ordered]
    exact List.forall_mem_map.mpr fun part mem => holds part (mem_sortBy.mp mem)
  have differ : (parts.map fun part => part.1.name).Nodup := by
    have increasing := h.pairwise_level holdsIds (h.chain_of_isBand linked)
    have ids : ((first :: rest).map Prod.fst).Nodup := increasing.imp fun less same => by
      rw [same] at less
      exact Nat.lt_irrefl _ less
    have byName : (((first :: rest).map Prod.fst).map LoopId.name).Nodup :=
      ids.map_on fun a memA b memB same => h.eq_of_name_eq (holdsIds a memA) (holdsIds b memB) same
    rw [List.map_map] at byName
    rw [names]
    exact byName
  rw [tileLoops_eq_map differ, List.map_map]
  have named := congrArg (List.map fun name => freshName n.loops.names (name ++ "_tile")) names
  rwa [List.map_map, List.map_map] at named

end Nest

/-- A fresh name is not taken. It is the base if this is free, and else the base with the first
number from 1 on behind it that makes it free, to which counting up comes after at most as many
numbers as names are taken. Where a band is tiled, each tile loop has the name that is fresh for its
loop alone among the names in the nest, and no two have one name. -/
theorem freshName_exact :
    (∀ (taken : List String) (base : String), freshName taken base ∉ taken ∧
      (base ∉ taken → freshName taken base = base) ∧
      (base ∈ taken → ∃ k, FirstFree taken base 1 k ∧ freshName taken base = base ++ toString k ∧
        1 ≤ k ∧ k ≤ taken.dedup.length ∧ ∀ j, 1 ≤ j → j < k → base ++ toString j ∈ taken)) ∧
    ∀ n : Nest, n.Placed → ∀ (band rest : List (LoopId × Factor)) (first : LoopId × Factor),
      (∀ part ∈ band, n.contains part.1 = true) →
      sortBy (fun part => part.1.level) band = first :: rest →
      n.isBand ((first :: rest).map Prod.fst) = true →
      ∃ tiles, n.tile band = .ok { n with loops := n.loops.enclose first.1.name tiles } ∧
        tiles.map Loop.name =
          ((first :: rest).map fun part => freshName n.loops.names (part.1.name ++ "_tile")) ∧
        (tiles.map Loop.name ++ n.loops.names).Nodup := by
  constructor
  · exact fun taken base =>
      ⟨freshName_notMem taken base, freshName_of_notMem, exists_firstFree⟩
  · intro n h band rest first known ordered linked
    exact h.map_name_tile (fun part mem => h.contains_iff.mp (known part mem)) ordered linked

theorem freshName_tiledNest :
    ("y_tile" ∈ tiledNest.loops.names ∧ ∃ k, FirstFree tiledNest.loops.names "y_tile" 1 k ∧
      "y_tile1" = "y_tile" ++ toString k) ∧
    ∃ tiles, tiledNest.tile [(⟨"x", 3⟩, ⟨4, by decide, by decide⟩),
        (⟨"y", 2⟩, ⟨2, by decide, by decide⟩)] =
          .ok { tiledNest with loops := tiledNest.loops.enclose "y" tiles } ∧
      tiles.map Loop.name = ["y_tile1", "x_tile1"] := by
  have isTaken : "y_tile" ∈ tiledNest.loops.names := by decide
  have placed : tiledNest.Placed := (Reachable.bound reachable_blur bind_tileRows rfl).placed
  obtain ⟨k, counted, name, -⟩ := (freshName_exact.1 _ _).2.2 isTaken
  have fresh : freshName tiledNest.loops.names "y_tile" = "y_tile1" := by decide +kernel
  refine ⟨⟨isTaken, k, counted, fresh.symm.trans name⟩, ?_⟩
  obtain ⟨tiles, tiled, names, -⟩ := freshName_exact.2 tiledNest placed
    [(⟨"x", 3⟩, ⟨4, by decide, by decide⟩), (⟨"y", 2⟩, ⟨2, by decide, by decide⟩)]
    [(⟨"x", 3⟩, ⟨4, by decide, by decide⟩)] (⟨"y", 2⟩, ⟨2, by decide, by decide⟩)
    (by decide +kernel) (by cbv) (by decide +kernel)
  refine ⟨tiles, tiled, names.trans ?_⟩
  decide +kernel

end LoopNest
