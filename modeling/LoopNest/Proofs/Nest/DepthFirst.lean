import LoopNest.Proofs.Nest.Renumber
import LoopNest.Proofs.Nest.Runs

/-! Depth-first orders: orders in which the computations under each loop are a run. The walk gives
such an order, and gives an order back exactly if it is one, so renumbering twice is the same as
renumbering once. -/
namespace LoopNest

namespace Forest

theorem block_of_mem_blocks {order : List String} {f : Forest} (once : f.computations.Nodup)
    (known : ∀ c ∈ f.computations, c ∈ order) (runs : ∀ t ∈ f.subtrees, Run order t.under) :
    ∀ b ∈ f.blocks (fun c => order.idxOf c) order.length, Block order b := by
  induction f with
  | nil => simp [blocks]
  | cons loop own body rest ihBody ihRest =>
    rw [computations, List.nodup_append', List.nodup_append'] at once
    obtain ⟨uniqueOwn, ⟨uniqueBody, uniqueRest, -⟩, apart⟩ := once
    have inBody := ihBody uniqueBody (fun c mem => known c (by simp [computations, mem]))
      fun t mem => runs t (by simp [subtrees, mem])
    have inRest := ihRest uniqueRest (fun c mem => known c (by simp [computations, mem]))
      fun t mem => runs t (by simp [subtrees, mem])
    intro b mem
    rcases List.mem_cons.mp mem with rfl | mem
    · have flat := flatMap_own_blocks_perm (fun c => order.idxOf c) order.length own body
      have perm := (joinBlocks_perm _).trans flat
      have once : (own ++ body.computations).Nodup :=
        List.nodup_append'.mpr ⟨uniqueOwn, uniqueBody, fun c hc hb =>
          apart hc (List.mem_append_left _ hb)⟩
      refine ⟨pairwise_joinBlocks (fun b hb => ?_) (flat.nodup_iff.mpr once), rfl, ?_,
        fun c hc => ?_⟩
      · rcases List.mem_append.mp hb with single | inside
        · obtain ⟨c, hc, rfl⟩ := List.mem_map.mp single
          exact block_singleton (known c (by simp [computations, hc]))
        · exact inBody b inside
      · exact (runs ⟨loop, own, body⟩ (by simp [subtrees])).congr fun c => perm.mem_iff.symm
      · refine known c ?_
        have mem := perm.mem_iff.mp hc
        rw [computations, ← List.append_assoc]
        exact List.mem_append_left _ mem
    · exact inRest b mem

theorem exists_part_of_mem_subtrees (rank : String → Nat) (last : Nat) {f : Forest} {t : Tree}
    (mem : t ∈ f.subtrees) :
    ∃ b ∈ f.blocks rank last, ∃ run, run.Perm t.under ∧ run <:+: b.2 := by
  induction f with
  | nil => simp [subtrees] at mem
  | cons loop own body rest ihBody ihRest =>
    simp only [subtrees, List.mem_cons, List.mem_append] at mem
    rcases mem with rfl | mem | mem
    · refine ⟨_, List.mem_cons_self, _, ?_, List.infix_rfl⟩
      exact (joinBlocks_perm _).trans (flatMap_own_blocks_perm rank last own body)
    · obtain ⟨b, inside, run, perm, part⟩ := ihBody mem
      exact ⟨_, List.mem_cons_self, run, perm,
        part.trans (infix_joinBlocks (List.mem_append_right _ inside))⟩
    · obtain ⟨b, beside, found⟩ := ihRest mem
      exact ⟨b, List.mem_cons_of_mem _ beside, found⟩

end Forest

namespace Nest

open Forest

/-- The computations under each loop execute one directly behind the other. -/
def DepthFirst (n : Nest) : Prop :=
  ∀ id cs, n.computationsUnder id = .ok cs →
    ∃ start, cs.map n.rank? = (List.range' start cs.length).map some

variable {n : Nest}

theorem rank?_of_mem {c : String} (mem : c ∈ n.order) : n.rank? c = some (n.order.idxOf c) := by
  have bound := List.idxOf_lt_length_iff.mpr mem
  rw [rank?, List.idxOf?_eq_some_iff]
  refine ⟨bound, List.getElem_idxOf bound, fun j hj same => ?_⟩
  have first := List.not_of_lt_findIdx (p := (· == c)) hj
  simp [same] at first

/-- An order is depth-first if the computations under each loop are a run of it. -/
theorem Placed.depthFirst_iff (h : n.Placed) :
    n.DepthFirst ↔ ∀ t ∈ n.loops.subtrees, Run n.order t.under := by
  have ranks {t : Tree} (mem : t ∈ n.loops.subtrees) :
      (n.sortByRank t.under).map n.rank? =
        ((n.sortByRank t.under).map fun c => n.order.idxOf c).map some := by
    rw [List.map_map]
    refine List.map_congr_left fun c hc => ?_
    have under := (under_sublist mem).subset (mem_sortBy.mp hc)
    exact rank?_of_mem (h.listed.mem_iff.mp under)
  constructor
  · intro depthFirst t mem
    obtain ⟨outer, way⟩ := exists_way mem
    have found := h.computationsUnder_eq_ok_iff.mpr
      ⟨outer, t, way, (rfl : _ = (LoopId.mk t.loop.name outer.length).name), rfl, rfl⟩
    obtain ⟨start, consecutive⟩ := depthFirst _ _ found
    rw [ranks mem] at consecutive
    have run := run_of_map_idxOf (List.map_injective_iff.mpr (Option.some_injective _) consecutive)
    exact run.congr fun c => mem_sortBy
  · intro runs id cs found
    obtain ⟨outer, t, way, -, -, rfl⟩ := h.computationsUnder_eq_ok_iff.mp found
    have mem := way.mem_subtrees
    have part := under_sublist mem
    have known : ∀ c ∈ t.under, c ∈ n.order := fun c hc =>
      h.listed.mem_iff.mp (part.subset hc)
    have run : Run n.order (n.sortByRank t.under) := (runs t mem).congr fun c => mem_sortBy.symm
    have sorted := pairwise_sortBy_idxOf (part.nodup h.computations) known
    obtain ⟨start, consecutive⟩ :=
      run.map_idxOf h.order (fun c hc => known c (mem_sortBy.mp hc)) sorted
    exact ⟨start, by rw [ranks mem, consecutive]⟩

theorem Placed.run_walkOrder (h : n.Placed) :
    ∀ t ∈ n.loops.subtrees, Run n.walkOrder t.under := by
  intro t mem
  obtain ⟨b, inside, run, perm, part⟩ :=
    exists_part_of_mem_subtrees (fun c => n.order.idxOf c) n.order.length mem
  have whole : b.2 <:+: n.walkOrder := infix_joinBlocks inside
  exact (run_of_part h.walkOrder_nodup (part.trans whole)).congr fun c => perm.mem_iff

/-- The walk gives a depth-first order back. -/
theorem Placed.walkOrder_eq_of_runs (h : n.Placed)
    (runs : ∀ t ∈ n.loops.subtrees, Run n.order t.under) : n.walkOrder = n.order := by
  have known : ∀ c ∈ n.loops.computations, c ∈ n.order := fun c mem => h.listed.mem_iff.mp mem
  have blocks := block_of_mem_blocks h.computations known runs
  have flat := n.loops.blocks_perm (fun c => n.order.idxOf c) n.order.length
  have sorted := pairwise_joinBlocks blocks (flat.nodup_iff.mpr h.computations)
  calc n.walkOrder
      = sortBy (fun c => n.order.idxOf c) n.walkOrder :=
        (sortBy_eq_self (sorted.imp Nat.le_of_lt)).symm
    _ = n.order := sortBy_idxOf h.order h.walkOrder_perm_order

theorem Sound.renumber_eq_self (h : n.Sound) (same : n.walkOrder = n.order) : n.renumber = n := by
  have loops : n.renumber.loops = n.loops := by
    simp only [renumber, same]
    exact mapComputations_eq_self fun t mem =>
      sortBy_eq_self ((h.ranked t mem).imp Nat.le_of_lt)
  have computations : n.renumber.computations = n.computations := by
    simp only [renumber, same]
    have ranks := List.pairwise_map.mp (pairwise_idxOf h.order)
    exact sortBy_eq_self (ranks.imp Nat.le_of_lt)
  calc n.renumber = ⟨n.renumber.loops, n.renumber.computations⟩ := rfl
    _ = n := by rw [loops, computations]

theorem Placed.depthFirst_renumber (h : n.Placed) : n.renumber.DepthFirst := by
  rw [h.renumber.toPlaced.depthFirst_iff, h.order_renumber]
  intro t mem
  simp only [Nest.renumber, subtrees_mapComputations, List.mem_map] at mem
  obtain ⟨s, hs, rfl⟩ := mem
  refine (h.run_walkOrder s hs).congr fun c => ?_
  have own := sortBy_perm (fun c => n.walkOrder.idxOf c) s.computations
  have below := computations_mapComputations_perm
    (fun own => sortBy_perm (fun c => n.walkOrder.idxOf c) own) s.body
  exact (own.append below).symm.mem_iff

/-- Renumbering a sound nest changes nothing exactly if its order is depth-first. -/
theorem Sound.renumber_eq_self_iff (h : n.Sound) : n.renumber = n ↔ n.DepthFirst := by
  constructor
  · intro same
    rw [← same]
    exact h.toPlaced.depthFirst_renumber
  · intro depthFirst
    exact h.renumber_eq_self (h.walkOrder_eq_of_runs (h.depthFirst_iff.mp depthFirst))

theorem Placed.renumber_renumber (h : n.Placed) : n.renumber.renumber = n.renumber :=
  h.renumber.renumber_eq_self_iff.mpr h.depthFirst_renumber

theorem Placed.walkOrder_eq_iff (h : n.Placed) : n.walkOrder = n.order ↔ n.DepthFirst := by
  rw [h.depthFirst_iff]
  constructor
  · intro same
    rw [← same]
    exact h.run_walkOrder
  · exact h.walkOrder_eq_of_runs

theorem Placed.depthFirst_congr (h : n.Placed) {m : Nest} (h' : m.Placed)
    (order : m.order = n.order)
    (under : ∀ cs, cs ∈ m.loops.subtrees.map Tree.under ↔ cs ∈ n.loops.subtrees.map Tree.under) :
    m.DepthFirst ↔ n.DepthFirst := by
  have runs (k : Nest) : (∀ t ∈ k.loops.subtrees, Run k.order t.under) ↔
      ∀ cs ∈ k.loops.subtrees.map Tree.under, Run k.order cs := List.forall_mem_map.symm
  rw [h.depthFirst_iff, h'.depthFirst_iff, runs, runs, order]
  exact forall_congr' fun cs => by rw [under]

end Nest
end LoopNest
