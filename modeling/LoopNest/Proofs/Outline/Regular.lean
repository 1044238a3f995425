import Mathlib.Data.List.Pairwise
import LoopNest.Proofs.Outline.Load

/-! Regular outlines. In an outline that is laid out without a fault more holds than the search for
faults looks at: keys are names, each computation stands in the list of one loop, once, the lists
follow the order, and the ranks count up from zero. Written down by names, a sound nest is laid out
without a fault, and nothing is lost: the outline unfolds into the nest again. -/
namespace LoopNest

namespace Outline

/-- What holds of the names, lists and ranks of a nest that is written down by names. -/
structure Regular (o : Outline) : Prop where
  faultless : o.fault? = none
  keys : ∀ name e, o.loops.get? name = some e → e.loop.name = name
  once : ∀ c, o.computations.contains c = true → ∃ name e, o.innermost.get? c = some name ∧
    o.loops.get? name = some e ∧ e.computations.count c = 1 ∧
    ∀ name' e', o.loops.get? name' = some e' → c ∈ e'.computations → name' = name
  known : ∀ name e, o.loops.get? name = some e → ∀ c ∈ e.computations,
    o.computations.contains c = true
  sorted : ∀ name e, o.loops.get? name = some e → e.computations.Pairwise fun c d =>
    ∃ r s, o.ranks.get? c = some r ∧ o.ranks.get? d = some s ∧ r < s
  ranks : (∀ c, o.ranks.contains c = true ↔ o.computations.contains c = true) ∧
    o.ranks.values.Perm (List.range o.computations.size)

variable {o : Outline} {order : List String}

theorem LaidOut.contains_iff (h : o.LaidOut order) {c : String} :
    o.computations.contains c = true ↔ c ∈ order := by
  rw [Table.contains_iff, h.keys]

theorem LaidOut.size_computations (h : o.LaidOut order) : o.computations.size = order.length := by
  rw [← h.keys, Table.length_keys]

theorem LaidOut.get?_ranks (h : o.LaidOut order) {c : String} (mem : c ∈ order) :
    o.ranks.get? c = some (order.idxOf c) := by
  rw [Table.get?_eq_some_iff, h.ranks, List.mem_zipIdx_iff_getElem?]
  exact List.getElem?_eq_some_iff.mpr ⟨List.idxOf_lt_length_iff.mpr mem, by simp⟩

theorem own_of_get? {name : String} {e : Entry} (found : o.loops.get? name = some e) :
    o.own name = e.computations := by
  rw [own, found]
  rfl

theorem LaidOut.own_sublist (h : o.LaidOut order) {name : String} {e : Entry}
    (found : o.loops.get? name = some e) : e.computations.Sublist order :=
  own_of_get? found ▸ h.ranked name

theorem exists_place (ok : o.fault? = none) {c : String}
    (known : o.computations.contains c = true) :
    ∃ name e, o.innermost.get? c = some name ∧ o.loops.get? name = some e ∧
      c ∈ e.computations := by
  obtain ⟨-, -, placed, complete, -⟩ := fault?_eq_none_iff.mp ok
  obtain ⟨given, -⟩ := computationFault?_eq_none_iff.mp (complete c (Table.contains_iff.mp known))
  obtain ⟨name, given⟩ := Table.contains_iff_get?.mp given
  obtain ⟨-, e, found, own⟩ :=
    placeFault?_eq_none_iff.mp (placed (c, name) (Table.get?_eq_some_iff.mp given))
  exact ⟨name, e, given, found, own⟩

theorem LaidOut.eq_of_mem (h : o.LaidOut order) {name name' : String} {e e' : Entry}
    (found : o.loops.get? name = some e) (found' : o.loops.get? name' = some e') {c : String}
    (own : c ∈ e.computations) (own' : c ∈ e'.computations) : name' = name := by
  by_contra differ
  have unique := List.nodup_flatMap.mp (h.listed.nodup_iff.mpr h.unique)
  have lists : o.loops.keys.Pairwise fun a b => (o.own a).Disjoint (o.own b) := unique.2
  have symmetric : Std.Symm fun a b => (o.own a).Disjoint (o.own b) :=
    ⟨fun _ _ disjoint _ mem mem' => disjoint mem' mem⟩
  have apart := lists.forall (Table.mem_keys_iff.mpr ⟨e', found'⟩)
    (Table.mem_keys_iff.mpr ⟨e, found⟩) differ
  rw [own_of_get? found', own_of_get? found] at apart
  exact apart own' own

/-- An outline that is laid out without a fault is regular. -/
theorem LaidOut.regular (h : o.LaidOut order) (ok : o.fault? = none) : o.Regular where
  faultless := ok
  keys := h.named
  once := by
    intro c known
    obtain ⟨name, e, given, found, own⟩ := exists_place ok known
    have unique := (h.own_sublist found).nodup h.unique
    exact ⟨name, e, given, found, List.count_eq_one_of_mem unique own,
      fun name' e' found' own' => h.eq_of_mem found found' own own'⟩
  known := fun name e found c own => h.contains_iff.mpr ((h.own_sublist found).subset own)
  sorted := by
    intro name e found
    have part := h.own_sublist found
    refine ((pairwise_idxOf h.unique).sublist part).imp_of_mem fun {c d} hc hd less => ?_
    exact ⟨_, _, h.get?_ranks (part.subset hc), h.get?_ranks (part.subset hd), less⟩
  ranks := by
    constructor
    · intro c
      rw [h.contains_iff, Table.contains_iff, Table.keys, h.ranks, List.zipIdx_map_fst]
    · rw [h.size_computations, Table.values, h.ranks, List.zipIdx_map_snd, List.range_eq_range']

theorem LaidOut.regular_of_nest? (h : o.LaidOut order) {n : Nest} (loaded : o.nest? = .ok n) :
    o.Regular :=
  h.regular (nest?_eq_ok_iff.mp loaded).1

end Outline

namespace Forest

theorem unfolds_tops {o : Outline} {f : Forest}
    (holds : ∀ t ∈ f.subtrees, ∃ e, o.loops.get? t.loop.name = some e ∧ e.loop = t.loop ∧
      e.computations = t.computations ∧ e.children = t.body.tops.map Loop.name) :
    o.Unfolds (f.tops.map Loop.name) f := by
  induction f with
  | nil => exact .nil
  | cons loop own body rest ihBody ihRest =>
    obtain ⟨e, found, sameLoop, sameOwn, children⟩ := holds ⟨loop, own, body⟩ (by simp [subtrees])
    have inside := ihBody fun t mem => holds t (by simp [subtrees, mem])
    have beside := ihRest fun t mem => holds t (by simp [subtrees, mem])
    rw [← children] at inside
    have whole := Outline.Unfolds.cons found inside beside
    rwa [sameLoop, sameOwn] at whole

end Forest

theorem eraseDups_of_nodup {l : List Nat} (nodup : l.Nodup) : l.eraseDups = l := by
  induction l with
  | nil => rfl
  | cons a l ih =>
    rw [List.nodup_cons] at nodup
    have kept : l.filter (fun b => !b == a) = l := by
      refine List.filter_eq_self.mpr fun b mem => ?_
      have differs : b ≠ a := fun same => nodup.1 (same ▸ mem)
      simpa using differs
    rw [List.eraseDups_cons, kept, ih nodup.2]

theorem Outline.LaidOut.ranksFault? {o : Outline} {order : List String} (h : o.LaidOut order) :
    o.ranksFault? = none := by
  have values : o.ranks.values = List.range' 0 order.length := by
    rw [Table.values, h.ranks, List.zipIdx_map_snd]
  have count : o.ranks.size = order.length := by
    rw [Table.size, h.ranks, List.length_zipIdx]
  rw [Outline.ranksFault?, values, eraseDups_of_nodup List.nodup_range', h.size_computations,
    count]
  simp

namespace Nest

open Forest

variable {n : Nest}

section Tables

theorem Placed.keys_loops (h : n.Placed) :
    ((n.entries.map fun e => (e.loop.name, e)).map Prod.fst).Nodup := by
  have names := h.names
  rw [Forest.names, ← map_loop_entries n.loops 0 none, List.map_map] at names
  rwa [List.map_map]

theorem Placed.keys_computations (h : n.Placed) :
    ((n.computations.map fun c => (c.name, c)).map Prod.fst).Nodup := by
  rw [List.map_map]
  exact h.order

theorem Placed.keys_ranks (h : n.Placed) : (n.order.zipIdx.map Prod.fst).Nodup := by
  rw [List.zipIdx_map_fst]
  exact h.order

theorem Placed.keys_innermost (h : n.Placed) :
    ((n.entries.flatMap fun e => e.computations.map fun c => (c, e.loop.name)).map
      Prod.fst).Nodup := by
  have same : ((n.entries.flatMap fun e => e.computations.map fun c => (c, e.loop.name)).map
      Prod.fst) = n.loops.computations := by
    rw [List.map_flatMap, ← flatMap_computations_entries n.loops 0 none, entries]
    simp [Function.comp_def]
  rw [same]
  exact h.computations

theorem Placed.get?_outline (h : n.Placed) {name : String} {e : Entry} :
    n.outline.loops.get? name = some e ↔
      ∃ outer t, Way n.loops outer t ∧ t.loop.name = name ∧ e = entryAt 0 none outer t := by
  rw [outline, Table.get?_ofList h.keys_loops, List.mem_map]
  constructor
  · rintro ⟨e', mem, same⟩
    obtain ⟨rfl, rfl⟩ := Prod.mk.inj same
    obtain ⟨outer, t, way, rfl⟩ := mem_entries_iff.mp mem
    exact ⟨outer, t, way, rfl, rfl⟩
  · rintro ⟨outer, t, way, rfl, rfl⟩
    exact ⟨_, mem_entries_iff.mpr ⟨outer, t, way, rfl⟩, rfl⟩

theorem Placed.contains_outline (h : n.Placed) {c : String} :
    n.outline.computations.contains c = true ↔ c ∈ n.order := by
  rw [Table.contains_iff, outline, Table.keys_ofList h.keys_computations, List.map_map]
  rfl

theorem Placed.get?_ranks (h : n.Placed) {c : String} {r : Nat} :
    n.outline.ranks.get? c = some r ↔ n.order[r]? = some c := by
  rw [outline, Table.get?_ofList h.keys_ranks, List.mem_zipIdx_iff_getElem?]

theorem Placed.get?_ranks_of_mem (h : n.Placed) {c : String} (mem : c ∈ n.order) :
    n.outline.ranks.get? c = some (n.order.idxOf c) := by
  rw [h.get?_ranks]
  exact List.getElem?_eq_some_iff.mpr ⟨List.idxOf_lt_length_iff.mpr mem, by simp⟩

theorem Placed.get?_innermost (h : n.Placed) {c name : String} :
    n.outline.innermost.get? c = some name ↔
      ∃ outer t, Way n.loops outer t ∧ c ∈ t.computations ∧ t.loop.name = name := by
  rw [outline, Table.get?_ofList h.keys_innermost, List.mem_flatMap]
  constructor
  · rintro ⟨e, mem, pair⟩
    obtain ⟨d, hd, same⟩ := List.mem_map.mp pair
    obtain ⟨rfl, rfl⟩ := Prod.mk.inj same
    obtain ⟨outer, t, way, rfl⟩ := mem_entries_iff.mp mem
    exact ⟨outer, t, way, hd, rfl⟩
  · rintro ⟨outer, t, way, hc, rfl⟩
    exact ⟨_, mem_entries_iff.mpr ⟨outer, t, way, rfl⟩, List.mem_map.mpr ⟨c, hc, rfl⟩⟩

theorem Placed.size_loops (h : n.Placed) : n.outline.loops.size = n.loops.size := by
  rw [Table.size, outline, Table.entries_ofList h.keys_loops, List.length_map, ← length_names,
    Forest.names, ← map_loop_entries n.loops 0 none, List.length_map, List.length_map]
  rfl

theorem Placed.size_computations (h : n.Placed) :
    n.outline.computations.size = n.order.length := by
  rw [Table.size, outline, Table.entries_ofList h.keys_computations, Nest.order]
  simp

theorem Placed.values_ranks (h : n.Placed) :
    n.outline.ranks.values = List.range n.order.length := by
  rw [Table.values, outline, Table.entries_ofList h.keys_ranks, List.zipIdx_map_snd,
    List.range_eq_range']

end Tables

theorem Placed.named (h : n.Placed) : n.outline.Named := by
  intro name e found
  obtain ⟨outer, t, way, same, rfl⟩ := h.get?_outline.mp found
  exact same

theorem Placed.linked (h : n.Placed) : n.outline.Linked := by
  intro name e found child mem
  obtain ⟨outer, t, way, same, rfl⟩ := h.get?_outline.mp found
  obtain ⟨loop, top, rfl⟩ := List.mem_map.mp mem
  obtain ⟨s, within, rfl⟩ := exists_way_of_mem_tops top
  have inner := h.get?_outline.mpr ⟨_, s, way.trans within, rfl, rfl⟩
  simp [Outline.childFault?, inner, entryAt, same]

theorem Placed.unfolds (h : n.Placed) : n.outline.Unfolds n.outline.roots n.loops := by
  refine unfolds_tops fun t mem => ?_
  obtain ⟨outer, way⟩ := exists_way mem
  exact ⟨_, h.get?_outline.mpr ⟨outer, t, way, rfl, rfl⟩, rfl, rfl, rfl⟩

theorem Placed.names_perm (h : n.Placed) :
    n.loops.names.Perm (n.outline.loops.entries.map Prod.fst) := by
  have same : n.outline.loops.entries.map Prod.fst = n.loops.names := by
    rw [outline, Table.entries_ofList h.keys_loops, List.map_map, Forest.names,
      ← map_loop_entries n.loops 0 none, List.map_map]
    rfl
  rw [same]

theorem Placed.fault?_eq_none (h : n.Placed) : n.outline.fault? = none := by
  simp only [Outline.fault?, Option.or_eq_none_iff, List.findSome?_eq_none_iff]
  refine ⟨fun root mem => ?_, ?_, ?_, fun c mem => ?_, ?_⟩
  · obtain ⟨loop, top, rfl⟩ := List.mem_map.mp mem
    obtain ⟨t, way, rfl⟩ := exists_way_of_mem_tops top
    have found := h.get?_outline.mpr ⟨[], t, way, rfl, rfl⟩
    simp [Outline.rootFault?, found, entryAt]
  · obtain ⟨g, hg, same⟩ :=
      @Outline.Unfolds.reverse n.outline n.outline.roots.reverse _
        (by rw [List.reverse_reverse]; exact h.unfolds)
    exact Outline.walkFault?_eq_none h.named h.linked (fun _ hx => hx) hg
      (same.trans h.names_perm)
  · rintro ⟨c, name⟩ mem
    obtain ⟨outer, t, way, hc, rfl⟩ := h.get?_innermost.mp (Table.get?_eq_some_iff.mpr mem)
    have known := h.contains_outline.mpr (h.mem_order_iff.mpr ⟨outer, t, way, hc⟩)
    have found := h.get?_outline.mpr ⟨outer, t, way, rfl, rfl⟩
    simp [Outline.placeFault?, known, found, entryAt, hc]
  · have hc : c ∈ n.order := h.contains_outline.mp (Table.contains_iff.mpr mem)
    obtain ⟨outer, t, way, own⟩ := h.mem_order_iff.mp hc
    have placed : n.outline.innermost.contains c = true :=
      Table.contains_iff_get?.mpr ⟨_, h.get?_innermost.mpr ⟨outer, t, way, own, rfl⟩⟩
    have ranked : n.outline.ranks.contains c = true :=
      Table.contains_iff_get?.mpr ⟨_, h.get?_ranks_of_mem hc⟩
    simp [Outline.computationFault?, placed, ranked]
  · have count : n.outline.ranks.size = n.order.length := by
      rw [Table.size, outline, Table.entries_ofList h.keys_ranks, List.length_zipIdx]
    rw [Outline.ranksFault?, h.values_ranks, eraseDups_of_nodup List.nodup_range,
      h.size_computations, count]
    simp

/-- The outline of a placed nest unfolds into the nest. -/
theorem Placed.nest_outline (h : n.Placed) : n.outline.nest = n := by
  have loops : n.outline.nest.loops = n.loops :=
    h.unfolds.unfold_eq (Nat.le_of_eq h.size_loops.symm)
  have values : n.outline.computations.values = n.computations := by
    rw [Table.values, outline, Table.entries_ofList h.keys_computations, List.map_map]
    simp [Function.comp_def]
  have sorted : n.computations.Pairwise fun c d =>
      (n.outline.ranks.get? c.name).getD 0 ≤ (n.outline.ranks.get? d.name).getD 0 := by
    have increasing := List.pairwise_map.mp (pairwise_idxOf h.order)
    refine increasing.imp_of_mem fun {c d} hc hd less => ?_
    rw [h.get?_ranks_of_mem (List.mem_map_of_mem hc), h.get?_ranks_of_mem (List.mem_map_of_mem hd)]
    exact Nat.le_of_lt less
  have computations : n.outline.nest.computations = n.computations := by
    rw [Outline.nest, values, sortBy_eq_self sorted]
  calc n.outline.nest = ⟨n.outline.nest.loops, n.outline.nest.computations⟩ := rfl
    _ = n := by rw [loops, computations]

/-- The outline of a sound nest is laid out by its order. -/
theorem Sound.laidOut (h : n.Sound) : n.outline.LaidOut n.order := by
  have placed := h.toPlaced
  refine ⟨placed.named, placed.order, ?_, fun name => ?_, ?_, ?_, ?_⟩
  · have unfolded := placed.unfolds.computations_eq placed.named
    exact (placed.names_perm.symm.flatMap_right _).trans (unfolded ▸ placed.listed)
  · cases found : n.outline.loops.get? name with
    | none => simp [Outline.own, found]
    | some e =>
      obtain ⟨outer, t, way, -, rfl⟩ := placed.get?_outline.mp found
      rw [Outline.own_of_get? found]
      refine sublist_of_pairwise_idxOf placed.order (fun c hc => ?_) (h.ranked t way.mem_subtrees)
      exact placed.mem_order_iff.mpr ⟨outer, t, way, hc⟩
  · rw [outline, Table.keys_ofList placed.keys_computations, List.map_map]
    rfl
  · rw [outline, Table.values, Table.entries_ofList placed.keys_computations, List.map_map,
      List.map_map]
    rfl
  · rw [outline, Table.entries_ofList placed.keys_ranks]

theorem Sound.regular (h : n.Sound) : n.outline.Regular :=
  h.laidOut.regular h.toPlaced.fault?_eq_none

end Nest
end LoopNest
