import LoopNest.Proofs.Nest.Sharing
import LoopNest.Proofs.Outline.Links
import LoopNest.Proofs.Reachable

/-! Views of a nest. A nest answers questions on its forest; written down by names, the same
questions are walks over the links. Seen upwards from a computation or a loop, and downwards from a
loop, these describe one forest, and every walk ends. -/
namespace LoopNest
namespace Nest

open Forest

variable {n : Nest}

/-- What is known of the chain of a computation, which ends at the innermost loop. -/
structure Chained (n : Nest) (c : String) (ids : List LoopId) (innermost : LoopId) : Prop where
  chain : n.chain c = .ok ids
  levels : ∀ level id, ids[level]? = some id → id.level = level ∧ n.contains id = true
  root : ∃ root ∈ n.roots, ids.head? = some root
  last : ids.getLast? = some innermost
  placed : n.outline.innermost.get? c = some innermost.name
  climbs : n.outline.Climbs innermost.name (ids.map LoopId.name)
  deepest : n.loopOf c none = .ok innermost
  at_level : ∀ level id, ids[level]? = some id →
    n.loopOf c (some level) = .ok id ∧ n.outline.ClimbsTo level innermost.name id.name
  too_deep : ∀ level, ids.length ≤ level → n.loopOf c (some level) = .error (.levelTooDeep c level)

theorem head?_of_way {outer : List Loop} {t : Tree} (way : Way n.loops outer t) :
    ∃ root ∈ n.roots, (pathIds (outer ++ [t.loop])).head? = some root := by
  obtain ⟨top, mem, first⟩ := way.head_mem_tops
  refine ⟨⟨top.name, 0⟩, List.mem_map_of_mem mem, ?_⟩
  rw [List.head?_eq_getElem?] at first ⊢
  rw [getElem?_pathIds, first, Option.map_some]

theorem length_pathIds (path : List Loop) : (pathIds path).length = path.length := by
  simp [pathIds]

theorem map_name_pathIds (path : List Loop) :
    (pathIds path).map LoopId.name = path.map Loop.name := by
  refine List.ext_getElem? fun i => ?_
  rw [List.getElem?_map, getElem?_pathIds, List.getElem?_map, Option.map_map]
  rfl

theorem Placed.exists_chained (h : n.Placed) {c : String} (mem : c ∈ n.order) :
    ∃ ids innermost, n.Chained c ids innermost := by
  obtain ⟨outer, t, way, own, chain⟩ := h.chain_ok mem
  have last : (pathIds (outer ++ [t.loop]))[outer.length]? = some ⟨t.loop.name, outer.length⟩ := by
    rw [getElem?_pathIds, List.getElem?_concat_length, Option.map_some]
  have long : (pathIds (outer ++ [t.loop])).length - 1 = outer.length := by
    simp [length_pathIds]
  refine ⟨pathIds (outer ++ [t.loop]), ⟨t.loop.name, outer.length⟩, chain, ?_,
    head?_of_way way, ?_, h.get?_innermost.mpr ⟨outer, t, way, own, rfl⟩, ?_, ?_, ?_, ?_⟩
  · intro level id met
    rw [getElem?_pathIds] at met
    obtain ⟨loop, on, rfl⟩ := Option.map_eq_some_iff.mp met
    obtain ⟨before, s, leads, rfl, deep⟩ := way.exists_at on
    exact ⟨rfl, h.contains_iff.mpr ⟨before, s, leads, rfl, deep⟩⟩
  · rw [List.getLast?_eq_getElem?, long, last]
  · rw [map_name_pathIds]
    exact h.climbs way
  · simp only [loopOf, chain, Option.getD_none, long, last]
  · intro level id met
    simp only [loopOf, chain, Option.getD_some, met, true_and]
    rw [getElem?_pathIds] at met
    obtain ⟨loop, on, rfl⟩ := Option.map_eq_some_iff.mp met
    exact h.climbsTo way on
  · intro level deep
    simp only [loopOf, chain, Option.getD_some, List.getElem?_eq_none deep]

/-- What is known of the computations under a loop. -/
structure Gathered (n : Nest) (id : LoopId) (cs : List String) : Prop where
  under : n.computationsUnder id = .ok cs
  sublist : cs.Sublist n.order
  nodup : cs.Nodup
  mem_iff : ∀ c, c ∈ cs ↔ ∃ ids, n.chain c = .ok ids ∧ id.name ∈ ids.map LoopId.name
  walk : ∃ gathered, n.outline.Gathers [id.name] gathered ∧ n.sortByRank gathered = cs

theorem Placed.exists_gathered (h : n.Placed) {id : LoopId} (known : n.contains id = true) :
    ∃ cs, n.Gathered id cs := by
  obtain ⟨outer, t, way, same, deep⟩ := h.contains_iff.mp known
  have places : (n.sortByRank t.under).Pairwise fun c d => n.order.idxOf c < n.order.idxOf d :=
    pairwise_sortBy_idxOf (h.nodup_under way) fun _ mem => h.under_subset way mem
  have inOrder : ∀ c ∈ n.sortByRank t.under, c ∈ n.order := fun c mem =>
    h.under_subset way (mem_sortBy.mp mem)
  have part := sublist_of_pairwise_idxOf h.order inOrder places
  refine ⟨n.sortByRank t.under, h.computationsUnder_eq_ok_iff.mpr ⟨outer, t, way, same, deep, rfl⟩,
    part, part.nodup h.order, fun c => ?_, ?_⟩
  · constructor
    · intro mem
      obtain ⟨path, chain⟩ := h.exists_chain? (inOrder c mem)
      refine ⟨pathIds path, chain_eq_ok_iff_chain?.mpr ⟨path, chain, rfl⟩, ?_⟩
      rw [map_name_pathIds, ← same]
      exact (h.mem_under_iff chain way).mp (mem_sortBy.mp mem)
    · rintro ⟨ids, found, mem⟩
      obtain ⟨around, s, leads, own, rfl⟩ := h.chain_eq_ok_iff.mp found
      have chain := (chain?_eq_some_iff h.computations).mpr ⟨around, s, leads, own, rfl⟩
      rw [map_name_pathIds, ← same] at mem
      exact mem_sortBy.mpr ((h.mem_under_iff chain way).mpr mem)
  · obtain ⟨gathered, walk, perm⟩ := h.gathers way
    refine ⟨gathered, same ▸ walk, ?_⟩
    exact sortBy_eq_of_perm (perm.trans (sortBy_perm _ _).symm) places

theorem Placed.encloses_iff_transGen (h : n.Placed) {a d : String} :
    n.encloses a d = true ↔ Relation.TransGen n.outline.Child a d := by
  rw [h.encloses_iff, h.transGen_child_iff]

/-- The walk outwards from a loop ends and meets the loops that enclose it. -/
theorem Placed.exists_climbs (h : n.Placed) {d : String} {e : Entry}
    (found : n.outline.loops.get? d = some e) :
    ∃ outer, n.outline.Climbs d (outer ++ [d]) ∧ ∀ a, n.encloses a d = true ↔ a ∈ outer := by
  obtain ⟨outer, t, way, rfl, -⟩ := h.get?_outline.mp found
  exact ⟨outer.map Loop.name, by simpa using h.climbs way, fun a => h.encloses_iff_mem way⟩

end Nest

namespace Reachable

variable {n : Nest}

/-- In a reachable nest the chains of computations, the computations under loops and the loops
around loops describe one forest, and the walks over the links that find them end. -/
theorem views_agree (reached : Reachable n) :
    (∀ c ∈ n.order, ∃ ids innermost, n.Chained c ids innermost) ∧
      (∀ id, n.contains id = true → ∃ cs, n.Gathered id cs) ∧
      (∀ a d, n.encloses a d = true ↔
        n.outline.loops.contains d = true ∧ Relation.TransGen n.outline.Child a d) ∧
      ∀ d, n.outline.loops.contains d = true →
        ∃ outer, n.outline.Climbs d (outer ++ [d]) ∧ ∀ a, n.encloses a d = true ↔ a ∈ outer := by
  have placed := reached.placed
  refine ⟨fun c mem => placed.exists_chained mem, fun id known => placed.exists_gathered known,
    fun a d => ?_, fun d known => ?_⟩
  · rw [← placed.encloses_iff_transGen, iff_and_self]
    intro around
    obtain ⟨outer, t, way, rfl, -⟩ := placed.encloses_iff.mp around
    exact Table.contains_iff_get?.mpr ⟨_, placed.get?_entryAt way⟩
  · obtain ⟨e, found⟩ := Table.contains_iff_get?.mp known
    exact placed.exists_climbs found

end Reachable

theorem views_agree_tiledNest :
    (∃ ids innermost, tiledNest.Chained "rows" ids innermost) ∧
      (∃ cs, tiledNest.Gathered ⟨"x_tile", 1⟩ cs) ∧
      Relation.TransGen tiledNest.outline.Child "y_tile" "x" ∧
      ∃ outer, tiledNest.outline.Climbs "x" (outer ++ ["x"]) ∧ "y_tile" ∈ outer := by
  obtain ⟨chained, gathered, encloses, climbs⟩ :=
    Reachable.views_agree (.bound reachable_blur bind_tileRows rfl)
  obtain ⟨outer, walk, met⟩ := climbs "x" (by decide)
  exact ⟨chained "rows" (by decide), gathered ⟨"x_tile", 1⟩ (by decide),
    ((encloses "y_tile" "x").mp (by decide)).2, outer, walk, (met "y_tile").mp (by decide)⟩

end LoopNest
