import LoopNest.Proofs.Outline.Unfold
import LoopNest.Proofs.Nest.Sound

/-! Outlines that a loader lays out: besides the links, which the search for faults looks at, the
lists of computations have to fit the order. Without a fault such an outline unfolds into a sound
nest. What each check in the search looks at is said first. -/
namespace LoopNest

theorem flatMap_filter_perm {α : Type} {key : α → Option String} {keys : List String}
    (nodup : keys.Nodup) {l : List α} (known : ∀ a ∈ l, ∃ k ∈ keys, key a = some k) :
    (keys.flatMap fun k => l.filter fun a => key a == some k).Perm l := by
  induction keys generalizing l with
  | nil =>
    have empty : l = [] := by
      refine List.eq_nil_iff_forall_not_mem.mpr fun a ha => ?_
      obtain ⟨k, hk, -⟩ := known a ha
      exact absurd hk List.not_mem_nil
    simp [empty]
  | cons k keys ih =>
    rw [List.nodup_cons] at nodup
    have others : ∀ k' ∈ keys, l.filter (fun a => key a == some k') =
        (l.filter fun a => !key a == some k).filter fun a => key a == some k' := by
      intro k' hk'
      rw [List.filter_filter]
      refine List.filter_congr fun a _ => ?_
      by_cases hits : key a = some k'
      · have differs : k' ≠ k := fun same => nodup.1 (same ▸ hk')
        simp [hits, differs]
      · simp [hits]
    have rest : ∀ a ∈ l.filter fun a => !key a == some k, ∃ k' ∈ keys, key a = some k' := by
      intro a ha
      obtain ⟨mem, differs⟩ := List.mem_filter.mp ha
      obtain ⟨k', hk', same⟩ := known a mem
      rcases List.mem_cons.mp hk' with rfl | hk'
      · simp [same] at differs
      · exact ⟨k', hk', same⟩
    rw [List.flatMap_cons, List.flatMap_congr others]
    exact ((ih nodup.2 rest).append_left _).trans (List.filter_append_perm _ l)

namespace Outline

open Forest

variable {o : Outline}

theorem rootFault?_eq_none_iff {root : String} :
    o.rootFault? root = none ↔
      ∃ e, o.loops.get? root = some e ∧ e.parent = none ∧ e.level = 0 := by
  cases found : o.loops.get? root with
  | none => simp [rootFault?, found]
  | some e => cases parent : e.parent <;> simp [rootFault?, found, parent]

theorem childFault?_eq_none_iff {name child : String} {e : Entry} :
    o.childFault? name e child = none ↔
      ∃ c, o.loops.get? child = some c ∧ c.parent = some name ∧ c.level = e.level + 1 := by
  cases found : o.loops.get? child with
  | none => simp [childFault?, found]
  | some c =>
    simp only [childFault?, found, Option.some.injEq, exists_eq_left']
    split
    · next stray => simp [stray]
    · next named =>
      split
      · next level => simp [level]
      · next level => simpa using ⟨by simpa using named, by simpa using level⟩

theorem placeFault?_eq_none_iff {c name : String} :
    o.placeFault? (c, name) = none ↔
      o.computations.contains c = true ∧ ∃ e, o.loops.get? name = some e ∧ c ∈ e.computations := by
  by_cases known : o.computations.contains c = true
  · cases found : o.loops.get? name <;> simp [placeFault?, known, found]
  · simp [placeFault?, known]

theorem computationFault?_eq_none_iff {c : String} :
    o.computationFault? c = none ↔
      o.innermost.contains c = true ∧ o.ranks.contains c = true := by
  cases inner : o.innermost.contains c <;> simp [computationFault?, inner]

theorem fault?_eq_none_iff :
    o.fault? = none ↔
      (∀ root ∈ o.roots, o.rootFault? root = none) ∧
      o.walkFault? o.loops.entries o.roots.reverse = none ∧
      (∀ placed ∈ o.innermost.entries, o.placeFault? placed = none) ∧
      (∀ c ∈ o.computations.keys, o.computationFault? c = none) ∧ o.ranksFault? = none := by
  simp only [fault?, Option.or_eq_none_iff, List.findSome?_eq_none_iff]

/-- What a loader sees to: names, ranks and the lists of computations follow one order. -/
structure LaidOut (o : Outline) (order : List String) : Prop where
  named : o.Named
  unique : order.Nodup
  listed : (o.loops.keys.flatMap o.own).Perm order
  ranked : ∀ name, (o.own name).Sublist order
  keys : o.computations.keys = order
  values : o.computations.values.map Computation.name = order
  ranks : o.ranks.entries = order.zipIdx

theorem laidOut_of_grouped {α : Type} {l : List α} {name : α → String}
    {key : α → Option String} {computation : α → Computation}
    (own_name : ∀ a, (computation a).name = name a) (named : o.Named) (unique : (l.map name).Nodup)
    (grouped : ∀ k ∈ o.loops.keys, o.own k = (l.filter fun a => key a == some k).map name)
    (known : ∀ a ∈ l, ∃ k ∈ o.loops.keys, key a = some k)
    (computations : o.computations = Table.ofList (l.map fun a => (name a, computation a)))
    (ranks : o.ranks = Table.ofList (l.map name).zipIdx) : o.LaidOut (l.map name) := by
  have names : ((l.map fun a => (name a, computation a)).map Prod.fst).Nodup := by
    rw [List.map_map]
    exact unique
  refine ⟨named, unique, ?_, fun k => ?_, ?_, ?_, ?_⟩
  · rw [List.flatMap_congr grouped, ← List.map_flatMap]
    exact (flatMap_filter_perm o.loops.nodup known).map name
  · by_cases mem : k ∈ o.loops.keys
    · rw [grouped k mem]
      exact List.filter_sublist.map name
    · have absent : o.loops.get? k = none := by
        by_contra some_entry
        obtain ⟨e, found⟩ := Option.ne_none_iff_exists'.mp some_entry
        exact mem (Table.mem_keys_iff.mpr ⟨e, found⟩)
      simp [own, absent]
  · rw [computations, Table.keys_ofList names, List.map_map]
    rfl
  · rw [computations, Table.values, Table.entries_ofList names]
    simp [Function.comp_def, own_name]
  · have places : ((l.map name).zipIdx.map Prod.fst).Nodup := by
      rw [List.zipIdx_map_fst]
      exact unique
    rw [ranks, Table.entries_ofList places]

/-- What the walk over a faultless outline has seen is the forest it unfolds into. -/
theorem exists_unfolds (named : o.Named) (ok : o.fault? = none) :
    ∃ f, o.Unfolds o.roots f ∧ f.names.Perm o.loops.keys ∧ o.nest.loops = f := by
  obtain ⟨-, walked, -⟩ := fault?_eq_none_iff.mp ok
  obtain ⟨g, hg, seen⟩ := exists_unfolds_of_walkFault? named (fun _ hx => hx) walked
  obtain ⟨f, hf, same⟩ := hg.reverse
  have perm : f.names.Perm o.loops.keys := same.trans seen
  refine ⟨f, hf, perm, hf.unfold_eq ?_⟩
  rw [← length_names, perm.length_eq, Table.length_keys]

theorem LaidOut.computations_nest {order : List String} (h : o.LaidOut order) :
    o.nest.computations = o.computations.values := by
  have rank : ∀ i (hi : i < o.computations.values.length),
      (o.ranks.get? o.computations.values[i].name).getD 0 = i := by
    intro i hi
    have long : i < order.length := by rw [← h.values, List.length_map]; exact hi
    have name : o.computations.values[i].name = order[i] := by simp [← h.values]
    have found : o.ranks.get? order[i] = some i := by
      rw [Table.get?_eq_some_iff, h.ranks, List.mem_zipIdx_iff_getElem?]
      exact List.getElem?_eq_getElem long
    rw [name, found]
    rfl
  refine sortBy_eq_self (List.pairwise_iff_getElem.mpr fun i j hi hj hij => ?_)
  rw [rank i hi, rank j hj]
  exact Nat.le_of_lt hij

theorem LaidOut.order_nest {order : List String} (h : o.LaidOut order) : o.nest.order = order := by
  rw [Nest.order, h.computations_nest, h.values]

/-- A laid out outline without faults unfolds into a sound nest. -/
theorem LaidOut.sound {order : List String} (h : o.LaidOut order) (ok : o.fault? = none) :
    o.nest.Sound := by
  obtain ⟨f, unfolds, perm, rfl⟩ := exists_unfolds h.named ok
  have same : o.nest.order = order := h.order_nest
  refine ⟨⟨perm.nodup_iff.mpr o.loops.nodup, same ▸ h.unique, ?_⟩, fun t mem => ?_⟩
  · rw [unfolds.computations_eq h.named, same]
    exact (perm.flatMap_right o.own).trans h.listed
  · rw [same, ← unfolds.own_eq h.named mem]
    exact (pairwise_idxOf h.unique).sublist (h.ranked _)

theorem nest?_eq_ok_iff {n : Nest} : o.nest? = .ok n ↔ o.fault? = none ∧ o.nest = n := by
  simp only [nest?]
  split
  · next fault found => simp [found]
  · next faultless => simp [faultless]

theorem LaidOut.sound_of_nest? {order : List String} (h : o.LaidOut order) {n : Nest}
    (loaded : o.nest? = .ok n) : n.Sound := by
  obtain ⟨faultless, rfl⟩ := nest?_eq_ok_iff.mp loaded
  exact h.sound faultless

end Outline
end LoopNest
