import LoopNest.Proofs.Action.Levels
import LoopNest.Proofs.Nest.DepthFirst

/-! What neighbours in the execution order tell of all other pairs. A loop around two computations
is in a depth-first order around all that stand between them as well, so of three computations in
order the outer two share just what the middle one shares with both. From neighbour to neighbour,
two computations therefore share the least of the levels between them. -/
namespace LoopNest

open Forest

namespace Sharing

theorem code_ofCount {count : Nat} (small : (count : Int) ≤ Text.signedBound) :
    (ofCount count).code = count - 1 := by
  cases count with
  | zero => rfl
  | succ level =>
    rw [Text.signedBound] at small
    have word := @Int.bmod_eq_of_le level Text.unsignedBound
      (by rw [Text.unsignedBound]; omega) (by rw [Text.unsignedBound]; omega)
    rw [ofCount, code, word]
    omega

end Sharing

namespace Nest

/-- One loop at this level is around both computations. -/
def Shares (n : Nest) (level : Nat) (x y : String) : Prop :=
  ∃ outer t, Way n.loops outer t ∧ outer.length = level ∧ x ∈ t.under ∧ y ∈ t.under

/-- So many loops are around both computations, and the nest says so. -/
structure Counted (n : Nest) (x y : String) (count : Nat) : Prop where
  sharing : n.sharing x y = .ok (Sharing.ofCount count)
  shares : ∀ level, level < count ↔ n.Shares level x y

variable {n : Nest}

theorem Placed.exists_counted (h : n.Placed) {x y : String} (hx : x ∈ n.order)
    (hy : y ∈ n.order) : ∃ count, n.Counted x y count := by
  obtain ⟨path, first⟩ := h.exists_chain? hx
  obtain ⟨path', second⟩ := h.exists_chain? hy
  obtain ⟨outer, t, way, -, isPath⟩ := (chain?_eq_some_iff h.computations).mp first
  obtain ⟨shared, p, q, rfl, rfl, sub⟩ := h.fork first second
  refine ⟨shared.length, h.sharing_of_fork first second sub, fun level => ⟨fun inner => ?_, ?_⟩⟩
  · have onWay : (shared ++ p)[level]? = some shared[level] := by
      rw [List.getElem?_append_left inner, List.getElem?_eq_getElem inner]
    rw [isPath] at onWay
    obtain ⟨before, s, leads, isLoop, deep⟩ := way.exists_at onWay
    have named : s.loop.name ∈ shared.map Loop.name :=
      List.mem_map_of_mem (isLoop ▸ List.getElem_mem inner)
    refine ⟨before, s, leads, deep, (h.mem_under_iff first leads).mpr ?_,
      (h.mem_under_iff second leads).mpr ?_⟩
    · rw [List.map_append]
      exact List.mem_append_left _ named
    · rw [List.map_append]
      exact List.mem_append_left _ named
  · rintro ⟨around, s, leads, rfl, underX, underY⟩
    obtain ⟨after, left⟩ := h.exists_after first leads ((h.mem_under_iff first leads).mp underX)
    obtain ⟨after', right⟩ := h.exists_after second leads ((h.mem_under_iff second leads).mp underY)
    by_contra outside
    have behind {rest after : List Loop} (same : shared ++ rest = around ++ s.loop :: after) :
        s.loop ∈ rest := by
      have at_level : (shared ++ rest)[around.length]? = some s.loop := by simp [same]
      rw [List.getElem?_append_right (Nat.le_of_not_lt outside)] at at_level
      exact List.mem_of_getElem? at_level
    have unique := nodup_map_of_subperm sub h.names
    rw [List.map_append, List.map_append] at unique
    have apart := List.disjoint_of_nodup_append (List.nodup_append.mp unique).2.1
    exact apart (List.mem_map_of_mem (behind left)) (List.mem_map_of_mem (behind right))

theorem Counted.unique {x y : String} {count count' : Nat} (counted : n.Counted x y count)
    (counted' : n.Counted x y count') : count = count' :=
  eq_of_forall_lt_iff fun level => (counted.shares level).trans (counted'.shares level).symm

/-- Of three computations in a depth-first order, the outer two share what the middle one shares
with both. -/
theorem Counted.between {x y z : String} {a b c : Nat} (first : n.Counted x y a)
    (second : n.Counted y z b) (whole : n.Counted x z c) (h : n.Placed) (depthFirst : n.DepthFirst)
    (hy : y ∈ n.order) (below : n.order.idxOf x ≤ n.order.idxOf y)
    (above : n.order.idxOf y ≤ n.order.idxOf z) : c = min a b := by
  refine eq_of_forall_lt_iff fun level => ?_
  rw [Nat.lt_min, first.shares, second.shares, whole.shares]
  constructor
  · rintro ⟨outer, t, way, deep, hx, hz⟩
    have run := h.depthFirst_iff.mp depthFirst t way.mem_subtrees
    have mem := run x hx z hz y hy below above
    exact ⟨⟨outer, t, way, deep, hx, mem⟩, outer, t, way, deep, mem, hz⟩
  · rintro ⟨⟨outer, t, way, deep, hx, mem⟩, outer', t', way', deep', mem', hz⟩
    obtain ⟨path, chain⟩ := h.exists_chain? hy
    obtain ⟨after, here⟩ := h.exists_after chain way ((h.mem_under_iff chain way).mp mem)
    obtain ⟨after', there⟩ := h.exists_after chain way' ((h.mem_under_iff chain way').mp mem')
    obtain ⟨-, tails⟩ := List.append_inj (here.symm.trans there) (deep.trans deep'.symm)
    have same : t.loop = t'.loop := (List.cons.inj tails).1
    obtain ⟨rfl, rfl⟩ := way.eq_of_name_eq h.names way' (congrArg Loop.name same)
    exact ⟨outer, t, way, deep, hx, hz⟩

theorem Placed.idxOf_of_getElem? (h : n.Placed) {i : Nat} {x : String}
    (at_i : n.order[i]? = some x) : n.order.idxOf x = i := by
  obtain ⟨short, rfl⟩ := List.getElem?_eq_some_iff.mp at_i
  exact h.order.idxOf_getElem i short

/-- Along a depth-first order a computation shares with a later one the least of what the
neighbours between them share. -/
theorem Placed.least_counted (h : n.Placed) (depthFirst : n.DepthFirst) {i distance : Nat}
    {x y : String} (hx : n.order[i]? = some x) (hy : n.order[i + distance + 1]? = some y)
    {count : Nat} (counted : n.Counted x y count) :
    (∃ k u v, i ≤ k ∧ k ≤ i + distance ∧ n.order[k]? = some u ∧ n.order[k + 1]? = some v ∧
      n.Counted u v count) ∧
    ∀ k u v count', i ≤ k → k ≤ i + distance → n.order[k]? = some u →
      n.order[k + 1]? = some v → n.Counted u v count' → count ≤ count' := by
  induction distance generalizing y count with
  | zero =>
    refine ⟨⟨i, x, y, Nat.le_refl i, Nat.le_refl i, hx, hy, counted⟩, ?_⟩
    intro k u v count' from_i to_i hu hv counted'
    obtain rfl : k = i := Nat.le_antisymm to_i from_i
    cases hx.symm.trans hu
    cases hy.symm.trans hv
    exact Nat.le_of_eq (counted.unique counted')
  | succ distance ih =>
    obtain ⟨short, -⟩ := List.getElem?_eq_some_iff.mp hy
    have within : i + distance + 1 < n.order.length := by omega
    obtain ⟨w, hw⟩ : ∃ w, n.order[i + distance + 1]? = some w :=
      ⟨_, List.getElem?_eq_getElem within⟩
    have mem {j : Nat} {z : String} (at_j : n.order[j]? = some z) : z ∈ n.order :=
      List.mem_of_getElem? at_j
    obtain ⟨a, before⟩ := h.exists_counted (mem hx) (mem hw)
    obtain ⟨b, next⟩ := h.exists_counted (mem hw) (mem hy)
    have least := before.between next counted h depthFirst (mem hw)
      (by rw [h.idxOf_of_getElem? hx, h.idxOf_of_getElem? hw]; omega)
      (by rw [h.idxOf_of_getElem? hw, h.idxOf_of_getElem? hy]; omega)
    obtain ⟨⟨k, u, v, from_i, to_w, hu, hv, reached⟩, bound⟩ := ih hw before
    constructor
    · rcases Nat.le_total a b with less | more
      · rw [Nat.min_eq_left less] at least
        exact ⟨k, u, v, from_i, by omega, hu, hv, least ▸ reached⟩
      · rw [Nat.min_eq_right more] at least
        exact ⟨i + distance + 1, w, y, by omega, by omega, hw, hy, least ▸ next⟩
    · intro k' u' v' count' from_i' to_y hu' hv' counted'
      by_cases inner : k' ≤ i + distance
      · exact (least ▸ Nat.min_le_left a b).trans (bound k' u' v' count' from_i' inner hu' hv'
          counted')
      · obtain rfl : k' = i + distance + 1 := by omega
        cases hw.symm.trans hu'
        cases hy.symm.trans hv'
        rw [next.unique counted'] at least
        exact least ▸ Nat.min_le_right a count'

/-- What is told of neighbours in the order is what the nest says of them. -/
theorem told_sharings {levels : List Sharing}
    (found : n.sharings [] 0 n.order = .ok levels) : n.Told n.order levels :=
  Change.told_of_sharings found fun x y level _ _ shares => by simp [shares]

theorem Holds.level_lt_size {id : LoopId} (holds : n.Holds id) :
    id.level < n.loops.size := by
  obtain ⟨outer, t, way, -, deep⟩ := holds
  have part := way.sublist.length_le
  rw [List.length_append, List.length_singleton, length_loops] at part
  omega

theorem Counted.code_eq {x y : String} {count : Nat} (counted : n.Counted x y count)
    (small : ∀ id, n.Holds id → (id.level : Int) < Text.signedBound) :
    (Sharing.ofCount count).code = count - 1 := by
  refine Sharing.code_ofCount ?_
  cases count with
  | zero => decide
  | succ level =>
    obtain ⟨outer, t, way, rfl, -⟩ := (counted.shares level).mp (Nat.lt_succ_self level)
    have fits : (outer.length : Int) < Text.signedBound :=
      small ⟨t.loop.name, outer.length⟩ ⟨outer, t, way, rfl, rfl⟩
    omega

theorem Told.min?_code {levels : List Sharing} (told : n.Told n.order levels) (h : n.Placed)
    (depthFirst : n.DepthFirst) (small : ∀ id, n.Holds id → (id.level : Int) < Text.signedBound)
    {i j : Nat} {x y : String} (less : i < j) (hx : n.order[i]? = some x)
    (hy : n.order[j]? = some y) :
    ∃ level, n.sharing x y = .ok level ∧
      (((levels.drop i).take (j - i)).map Sharing.code).min? = some level.code := by
  obtain ⟨length, each⟩ := told
  obtain ⟨distance, rfl⟩ := Nat.exists_eq_add_of_lt less
  obtain ⟨count, counted⟩ := h.exists_counted (List.mem_of_getElem? hx) (List.mem_of_getElem? hy)
  obtain ⟨⟨k, u, v, from_i, to_j, hu, hv, reached⟩, bound⟩ :=
    h.least_counted depthFirst hx hy counted
  refine ⟨_, counted.sharing, List.min?_eq_some_iff.mpr ⟨?_, fun code mem => ?_⟩⟩
  · obtain ⟨level, at_k, shares⟩ := each k u v hu hv
    cases reached.sharing.symm.trans shares
    refine List.mem_map_of_mem (List.mem_of_getElem? (i := k - i) ?_)
    rw [List.getElem?_take_of_lt (by omega), List.getElem?_drop, ← at_k]
    congr 1
    omega
  · obtain ⟨level, among, rfl⟩ := List.mem_map.mp mem
    obtain ⟨k, short, at_k⟩ := List.mem_iff_getElem.mp among
    rw [List.length_take, List.length_drop] at short
    rw [List.getElem_take, List.getElem_drop] at at_k
    have within : i + k + 1 < n.order.length := by omega
    obtain ⟨u, hu⟩ : ∃ u, n.order[i + k]? = some u :=
      ⟨_, List.getElem?_eq_getElem (Nat.lt_of_succ_lt within)⟩
    obtain ⟨v, hv⟩ : ∃ v, n.order[i + k + 1]? = some v := ⟨_, List.getElem?_eq_getElem within⟩
    obtain ⟨count', counted'⟩ := h.exists_counted (List.mem_of_getElem? hu) (List.mem_of_getElem? hv)
    obtain ⟨level', at_k', shares⟩ := each _ u v hu hv
    have least := bound _ u v count' (by omega) (by omega) hu hv counted'
    cases counted'.sharing.symm.trans shares
    rw [List.getElem?_eq_getElem (by omega), at_k, Option.some.injEq] at at_k'
    rw [at_k', counted.code_eq small, counted'.code_eq small]
    omega

end Nest

/-- In a reachable nest whose order is depth-first, the levels that neighbours share tell all
others: the number of any two computations is the least number of the neighbours from the first to
the second. Every nest that an action leaves behind has such an order. -/
theorem Reachable.sharing_eq_least {n : Nest} (reached : Reachable n)
    (small : ∀ id, n.contains id = true → (id.level : Int) < Text.signedBound) :
    (n.DepthFirst →
      ∃ levels, n.sharings [] 0 n.order = .ok levels ∧ n.Told n.order levels ∧
        ∀ i j x y, i < j → n.order[i]? = some x → n.order[j]? = some y →
          ∃ level, n.sharing x y = .ok level ∧
            (((levels.drop i).take (j - i)).map Sharing.code).min? = some level.code) ∧
    ∀ (a bound : Action) (m : Nest), a.bind n = .ok bound → bound.nest? = some m →
      m.DepthFirst := by
  have h := reached.placed
  have shallow : ∀ id, n.Holds id → (id.level : Int) < Text.signedBound := fun id holds =>
    small id (h.contains_iff.mpr holds)
  refine ⟨fun depthFirst => ?_, fun a bound m binds changed => ?_⟩
  · obtain ⟨levels, found⟩ := h.sharings_ok [] 0 fun _ mem => mem
    have told := Nest.told_sharings found
    exact ⟨levels, found, told, fun i j x y => told.min?_code h depthFirst shallow⟩
  · obtain ⟨change, targets, rendering, left, refers, fits, -, -, applied, rfl⟩ :=
      (Action.bind_eq_ok_iff h).mp binds
    cases changed
    exact (h.of_apply refers.holds fits applied).1.depthFirst_renumber

def stages : List Declaration := [
  .loop ⟨"i", none, .concrete 0, .concrete 10⟩,
  .loop ⟨"a", some "i", .concrete 0, .concrete 10⟩,
  .loop ⟨"b", some "i", .concrete 0, .concrete 10⟩,
  .loop ⟨"k", none, .concrete 0, .concrete 10⟩,
  .computation ⟨"s0", "a", ""⟩, .computation ⟨"s1", "b", ""⟩, .computation ⟨"s2", "b", ""⟩,
  .computation ⟨"s3", "k", ""⟩]

def stagesNest : Nest where
  loops :=
    .cons { name := "i", lower := .concrete 0, upper := .concrete 10 } []
      (.cons { name := "a", lower := .concrete 0, upper := .concrete 10 } ["s0"] .nil <|
        .cons { name := "b", lower := .concrete 0, upper := .concrete 10 } ["s1", "s2"] .nil .nil) <|
    .cons { name := "k", lower := .concrete 0, upper := .concrete 10 } ["s3"] .nil .nil
  computations := [⟨"s0", ""⟩, ⟨"s1", ""⟩, ⟨"s2", ""⟩, ⟨"s3", ""⟩]

theorem least_stages : Reachable stagesNest ∧
    (∀ id, stagesNest.contains id = true → (id.level : Int) < Text.signedBound) ∧
    stagesNest.DepthFirst ∧
    stagesNest.sharings [] 0 stagesNest.order = .ok [.upTo 0, .upTo 1, .independent] ∧
    stagesNest.sharing "s0" "s2" = .ok (.upTo 0) ∧ ([0, 1] : List Int).min? = some 0 ∧
    stagesNest.sharing "s0" "s3" = .ok .independent ∧
    ([0, 1, -1] : List Int).min? = some (-1) := by
  have put : Declaration.nest? stages = .ok stagesNest := by cbv
  have reached : Reachable stagesNest := .declared put
  have small : ∀ id, stagesNest.contains id = true → (id.level : Int) < Text.signedBound := by
    intro id known
    have deep := (reached.placed.contains_iff.mp known).level_lt_size
    have few : stagesNest.loops.size = 4 := rfl
    rw [Text.signedBound]
    omega
  have depthFirst : stagesNest.DepthFirst :=
    reached.sound.renumber_eq_self_iff.mp (by cbv)
  have neighbours :
      stagesNest.sharings [] 0 stagesNest.order = .ok [.upTo 0, .upTo 1, .independent] := by
    decide +kernel
  obtain ⟨levels, found, -, least⟩ := (reached.sharing_eq_least small).1 depthFirst
  cases neighbours.symm.trans found
  obtain ⟨level, shares, isLeast⟩ := least 0 2 "s0" "s2" (by decide) rfl rfl
  obtain ⟨level', shares', isLeast'⟩ := least 0 3 "s0" "s3" (by decide) rfl rfl
  have inner : stagesNest.sharing "s0" "s2" = .ok (.upTo 0) := by decide +kernel
  have outer : stagesNest.sharing "s0" "s3" = .ok .independent := by decide +kernel
  cases inner.symm.trans shares
  cases outer.symm.trans shares'
  exact ⟨reached, small, depthFirst, neighbours, inner, isLeast, outer, isLeast'⟩

end LoopNest
