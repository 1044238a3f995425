import Mathlib.Data.List.Flatten
import LoopNest.Nest.Renumber
import LoopNest.Proofs.Nest.Sound
import LoopNest.Proofs.Forest.Edit

/-! Renumbering loses and repeats nothing: the walk meets every computation of the forest once, and
a placed nest becomes a sound one with the walk's order. -/
namespace LoopNest

theorem joinBlocks_perm (blocks : List (Nat × List String)) :
    (joinBlocks blocks).Perm (blocks.flatMap Prod.snd) :=
  (sortBy_perm Prod.fst blocks).flatMap_right Prod.snd

theorem flatMap_singletons (rank : String → Nat) (own : List String) :
    (own.map fun c => (rank c, [c])).flatMap Prod.snd = own := by
  simp [List.flatMap_map]

/-- The blocks of a row hold the computations of the row. -/
theorem Forest.blocks_perm (rank : String → Nat) (last : Nat) (f : Forest) :
    ((f.blocks rank last).flatMap Prod.snd).Perm f.computations := by
  induction f with
  | nil => exact .refl _
  | cons loop own body rest ihBody ihRest =>
    have inside := joinBlocks_perm (own.map (fun c => (rank c, [c])) ++ body.blocks rank last)
    rw [List.flatMap_append, flatMap_singletons] at inside
    simp only [blocks, List.flatMap_cons, computations]
    rw [← List.append_assoc]
    exact (inside.trans (ihBody.append_left own)).append ihRest

theorem Forest.joinBlocks_blocks_perm (rank : String → Nat) (last : Nat) (f : Forest) :
    (joinBlocks (f.blocks rank last)).Perm f.computations :=
  (joinBlocks_perm _).trans (f.blocks_perm rank last)

theorem Forest.flatMap_own_blocks_perm (rank : String → Nat) (last : Nat) (own : List String)
    (body : Forest) :
    ((own.map (fun c => (rank c, [c])) ++ body.blocks rank last).flatMap Prod.snd).Perm
      (own ++ body.computations) := by
  rw [List.flatMap_append, flatMap_singletons]
  exact (body.blocks_perm rank last).append_left own

theorem infix_joinBlocks {blocks : List (Nat × List String)} {b : Nat × List String}
    (mem : b ∈ blocks) : b.2 <:+: joinBlocks blocks := by
  rw [joinBlocks, List.flatMap]
  exact List.infix_of_mem_flatten (List.mem_map_of_mem (mem_sortBy.mpr mem))

theorem Forest.exists_own_sublist (rank : String → Nat) (last : Nat) {f : Forest} {t : Tree}
    (mem : t ∈ f.subtrees) (sorted : t.computations.Pairwise fun c d => rank c ≤ rank d) :
    ∃ b ∈ f.blocks rank last, t.computations.Sublist b.2 := by
  induction f with
  | nil => simp [subtrees] at mem
  | cons loop own body rest ihBody ihRest =>
    simp only [subtrees, List.mem_cons, List.mem_append] at mem
    rcases mem with rfl | mem | mem
    · refine ⟨_, List.mem_cons_self, ?_⟩
      have singles : (own.map fun c => (rank c, [c])).Pairwise fun b b' => b.1 ≤ b'.1 :=
        List.pairwise_map.mpr sorted
      have kept := sublist_sortBy (List.sublist_append_left _ (body.blocks rank last)) singles
      have own_kept := kept.flatMap Prod.snd
      rwa [flatMap_singletons] at own_kept
    · obtain ⟨b, inside, part⟩ := ihBody mem
      exact ⟨_, List.mem_cons_self,
        part.trans (infix_joinBlocks (List.mem_append_right _ inside)).sublist⟩
    · obtain ⟨b, beside, part⟩ := ihRest mem
      exact ⟨b, List.mem_cons_of_mem _ beside, part⟩

namespace Nest

variable {n : Nest}

theorem walkOrder_perm (n : Nest) : n.walkOrder.Perm n.loops.computations :=
  n.loops.joinBlocks_blocks_perm _ _

theorem Placed.walkOrder_perm_order (h : n.Placed) : n.walkOrder.Perm n.order :=
  n.walkOrder_perm.trans h.listed

theorem Placed.walkOrder_nodup (h : n.Placed) : n.walkOrder.Nodup :=
  h.walkOrder_perm_order.nodup_iff.mpr h.order

theorem order_renumber_perm (n : Nest) : n.renumber.order.Perm n.order :=
  (sortBy_perm _ n.computations).map Computation.name

/-- The order after renumbering is the one in which the walk meets the computations. -/
theorem Placed.order_renumber (h : n.Placed) : n.renumber.order = n.walkOrder := by
  have perm : n.renumber.order.Perm n.walkOrder :=
    n.order_renumber_perm.trans h.walkOrder_perm_order.symm
  have sorted : n.renumber.order.Pairwise fun c d =>
      n.walkOrder.idxOf c ≤ n.walkOrder.idxOf d :=
    List.pairwise_map.mpr (pairwise_sortBy (fun c => n.walkOrder.idxOf c.name) n.computations)
  calc n.renumber.order
      = sortBy (fun c => n.walkOrder.idxOf c) n.renumber.order := (sortBy_eq_self sorted).symm
    _ = n.walkOrder := sortBy_idxOf h.walkOrder_nodup perm

theorem names_renumber (n : Nest) : n.renumber.loops.names = n.loops.names := by
  rw [Forest.names, Forest.names, renumber, Forest.loops_mapComputations]

theorem computations_renumber_perm (n : Nest) :
    n.renumber.loops.computations.Perm n.loops.computations :=
  Forest.computations_mapComputations_perm (fun own => sortBy_perm _ own) n.loops

/-- Renumbering makes a placed nest sound. -/
theorem Placed.renumber (h : n.Placed) : n.renumber.Sound := by
  have order := h.order_renumber
  refine ⟨⟨?_, ?_, ?_⟩, fun t mem => ?_⟩
  · rw [names_renumber]
    exact h.names
  · rw [order]
    exact h.walkOrder_nodup
  · rw [order]
    exact n.computations_renumber_perm.trans n.walkOrder_perm.symm
  · rw [order]
    simp only [Nest.renumber, Forest.subtrees_mapComputations, List.mem_map] at mem
    obtain ⟨s, hs, rfl⟩ := mem
    have own : s.computations.Sublist n.loops.computations := by
      rw [← Forest.flatMap_computations_subtrees, List.flatMap]
      exact List.sublist_flatten_of_mem (List.mem_map_of_mem hs)
    refine pairwise_sortBy_idxOf (own.nodup h.computations) fun c hc => ?_
    exact n.walkOrder_perm.mem_iff.mpr (own.subset hc)

theorem Placed.sortByRank_renumber (h : n.Placed) {t : Tree} (mem : t ∈ n.loops.subtrees)
    (ranked : t.computations.Pairwise fun c d => n.order.idxOf c < n.order.idxOf d) :
    n.renumber.sortByRank t.computations = t.computations := by
  obtain ⟨b, inside, part⟩ := Forest.exists_own_sublist (fun c => n.order.idxOf c) n.order.length
    mem (ranked.imp Nat.le_of_lt)
  have walked : t.computations.Sublist n.walkOrder :=
    part.trans (infix_joinBlocks inside).sublist
  rw [sortByRank, h.order_renumber]
  exact sortBy_eq_self (((pairwise_idxOf h.walkOrder_nodup).sublist walked).imp Nat.le_of_lt)

theorem Placed.loops_renumber (h : n.Placed) :
    n.renumber.loops = n.loops.mapComputations n.renumber.sortByRank := by
  have sorts : n.renumber.sortByRank = sortBy fun c => n.walkOrder.idxOf c := by
    funext own
    rw [sortByRank, h.order_renumber]
  rw [sorts]
  rfl

theorem Sound.loops_renumber (h : n.Sound) : n.renumber.loops = n.loops := by
  rw [h.toPlaced.loops_renumber]
  exact Forest.mapComputations_eq_self fun t mem => h.sortByRank_renumber mem (h.ranked t mem)

theorem Placed.entry?_renumber (h : n.Placed) {name : String} {e : Entry}
    (found : n.entry? name = some e) : n.renumber.entry? name =
      some { e with computations := n.renumber.sortByRank e.computations } := by
  obtain ⟨outer, t, way, named, rfl⟩ := h.entry?_eq_some_iff.mp found
  have moved := way.mapComputations n.renumber.sortByRank
  rw [← h.loops_renumber] at moved
  refine h.renumber.toPlaced.entry?_eq_some_iff.mpr ⟨_, _, moved, named, ?_⟩
  simp [Forest.entryAt, Forest.tops_mapComputations]

theorem chain?_renumber (n : Nest) (c : String) :
    n.renumber.loops.chain? c = n.loops.chain? c :=
  Forest.chain?_mapComputations (fun own => sortBy_perm _ own) n.loops c

end Nest
end LoopNest
