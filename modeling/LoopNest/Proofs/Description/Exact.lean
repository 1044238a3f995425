import LoopNest.Proofs.Description.Sound
import LoopNest.Proofs.Outline.Exact
import LoopNest.Proofs.Reachable

/-! The loader is exact: it takes just the descriptions that are well formed. What it takes it
takes as it was described, every computation under its loops and in its place in the order. -/
namespace LoopNest

namespace Description

/-- A loop that is reached from one without parent over the children. -/
inductive Reached (d : Description) : LoopItem → Prop where
  | root {item} (mem : item ∈ d.loops) (outermost : item.parent = none) : Reached d item
  | child {outer item} (reached : Reached d outer) (mem : item ∈ d.loops)
    (inside : item.name ∈ d.childrenOf outer) : Reached d item

/-- What a description needs in order to describe a nest. -/
structure WellFormed (d : Description) : Prop extends Checked d where
  roots : ∀ item ∈ d.loops, item.parent = none → item.level = 0
  children : ∀ outer ∈ d.loops, ∀ child ∈ d.childrenOf outer, ∃ item ∈ d.loops,
    item.name = child ∧ item.parent = some outer.name ∧ item.level = outer.level + 1
  once : ∀ outer ∈ d.loops, ∀ item ∈ d.loops, item.parent = some outer.name →
    (d.childrenOf outer).count item.name = 1
  reached : ∀ item ∈ d.loops, d.Reached item

variable {d : Description}

section Links

variable (checked : d.Checked)
include checked

theorem get?_outline {name : String} {e : Entry} :
    d.outline.loops.get? name = some e ↔
      ∃ item ∈ d.loops, item.name = name ∧ d.entry item = e := by
  rw [outline, Table.get?_ofList (keys_loops_nodup (error?_eq_none_iff.mpr checked)), List.mem_map]
  simp only [Prod.mk.injEq]

theorem get?_outline_of_mem {item : LoopItem} (mem : item ∈ d.loops) :
    d.outline.loops.get? item.name = some (d.entry item) :=
  (get?_outline checked).mpr ⟨item, mem, rfl, rfl⟩

theorem inner_outline {item : LoopItem} (mem : item ∈ d.loops) :
    d.outline.inner item.name = d.childrenOf item := by
  rw [Outline.inner_of_get? (get?_outline_of_mem checked mem)]
  rfl

theorem rootFaults_iff :
    (∀ root ∈ d.outline.roots, d.outline.rootFault? root = none) ↔
      ∀ item ∈ d.loops, item.parent = none → item.level = 0 := by
  constructor
  · intro ok item mem outermost
    have root : item.name ∈ d.outline.roots :=
      List.mem_map_of_mem (List.mem_filter.mpr ⟨mem, by simp [outermost]⟩)
    obtain ⟨e, found, -, level⟩ := Outline.rootFault?_eq_none_iff.mp (ok _ root)
    cases (get?_outline_of_mem checked mem).symm.trans found
    exact level
  · intro levels root mem
    obtain ⟨item, hitem, rfl⟩ := List.mem_map.mp mem
    obtain ⟨isLoop, outermost⟩ := List.mem_filter.mp hitem
    have outermost : item.parent = none := by simpa using outermost
    exact Outline.rootFault?_eq_none_iff.mpr
      ⟨_, get?_outline_of_mem checked isLoop, outermost, levels item isLoop outermost⟩

theorem linked_iff :
    d.outline.Linked ↔ ∀ outer ∈ d.loops, ∀ child ∈ d.childrenOf outer, ∃ item ∈ d.loops,
      item.name = child ∧ item.parent = some outer.name ∧ item.level = outer.level + 1 := by
  constructor
  · intro linked outer mem child inside
    have fits := linked outer.name _ (get?_outline_of_mem checked mem) child inside
    obtain ⟨e, found, parent, level⟩ := Outline.childFault?_eq_none_iff.mp fits
    obtain ⟨item, isLoop, same, rfl⟩ := (get?_outline checked).mp found
    exact ⟨item, isLoop, same, parent, level⟩
  · intro children name e found child inside
    obtain ⟨outer, mem, rfl, rfl⟩ := (get?_outline checked).mp found
    obtain ⟨item, isLoop, rfl, parent, level⟩ := children outer mem child inside
    exact Outline.childFault?_eq_none_iff.mpr
      ⟨_, get?_outline_of_mem checked isLoop, parent, level⟩

theorem listed_iff :
    d.outline.Listed ↔ ∀ outer ∈ d.loops, ∀ item ∈ d.loops, item.parent = some outer.name →
      (d.childrenOf outer).count item.name = 1 := by
  constructor
  · intro listed outer mem item mem' parent
    rw [← inner_outline checked mem]
    exact listed.child item.name _ outer.name (get?_outline_of_mem checked mem') parent
  · intro once
    constructor
    · intro name e found outermost
      obtain ⟨item, mem, rfl, rfl⟩ := (get?_outline checked).mp found
      have unique : d.outline.roots.Nodup := (List.filter_sublist.map _).nodup checked.loops
      have outermost : item.parent = none := outermost
      refine List.count_eq_one_of_mem unique ?_
      exact List.mem_map_of_mem (List.mem_filter.mpr ⟨mem, by simp [outermost]⟩)
    · intro name e parent found around
      obtain ⟨item, mem, rfl, rfl⟩ := (get?_outline checked).mp found
      obtain ⟨outer, mem', rfl⟩ := List.mem_map.mp (checked.parents item mem parent around)
      rw [inner_outline checked mem']
      exact once outer mem' item mem around

theorem reached_of_links
    (children : ∀ outer ∈ d.loops, ∀ child ∈ d.childrenOf outer, ∃ item ∈ d.loops,
      item.name = child ∧ item.parent = some outer.name ∧ item.level = outer.level + 1)
    (once : ∀ outer ∈ d.loops, ∀ item ∈ d.loops, item.parent = some outer.name →
      (d.childrenOf outer).count item.name = 1) {item : LoopItem} (mem : item ∈ d.loops) :
    d.Reached item := by
  induction level : item.level using Nat.strong_induction_on generalizing item with
  | h level ih =>
    cases parent : item.parent with
    | none => exact .root mem parent
    | some name =>
      obtain ⟨outer, isLoop, rfl⟩ := List.mem_map.mp (checked.parents item mem name parent)
      have inside : item.name ∈ d.childrenOf outer :=
        List.count_pos_iff.mp (by rw [once outer isLoop item mem parent]; exact Nat.one_pos)
      obtain ⟨item', mem', same, -, deeper⟩ := children outer isLoop item.name inside
      cases List.inj_on_of_nodup_map checked.loops mem' mem same
      exact .child (ih outer.level (by omega) isLoop rfl) mem inside

end Links

section Places

variable (ok : d.error? = none)
include ok

theorem get?_innermost {name loop : String} :
    d.outline.innermost.get? name = some loop ↔
      ∃ c ∈ d.ranked, c.loops.getLast? = some loop ∧ c.name = name := by
  have keys (cs : List ComputationItem) : ((cs.filterMap fun c =>
      c.loops.getLast?.map fun loop => (c.name, loop)).map Prod.fst).Sublist
        (cs.map ComputationItem.name) := by
    induction cs with
    | nil => exact .slnil
    | cons c cs ih =>
      cases last : c.loops.getLast? with
      | none => simpa [last] using ih.cons c.name
      | some loop => simpa [last] using ih.cons_cons c.name
  rw [outline, Table.get?_ofList ((keys d.ranked).nodup (names_ranked_nodup ok)),
    List.mem_filterMap]
  simp only [Option.map_eq_some_iff, Prod.mk.injEq, exists_eq_right_right]

/-- Where the checks find no error, the computations have their places, whatever the links are. -/
theorem placeFaults :
    (∀ placed ∈ d.outline.innermost.entries, d.outline.placeFault? placed = none) ∧
      ∀ c ∈ d.outline.computations.keys, d.outline.computationFault? c = none := by
  have checked := error?_eq_none_iff.mp ok
  have layout := laidOut ok
  constructor
  · rintro ⟨name, loop⟩ mem
    obtain ⟨c, ranked, last, rfl⟩ := (get?_innermost ok).mp (Table.get?_eq_some_iff.mpr mem)
    have known : d.outline.computations.contains c.name = true :=
      layout.contains_iff.mpr (List.mem_map_of_mem ranked)
    obtain ⟨name, isName, last'⟩ := exists_innermost ok ranked
    cases last.symm.trans last'
    obtain ⟨item, isLoop, rfl⟩ := List.mem_map.mp isName
    have own : c.name ∈ (d.entry item).computations :=
      List.mem_map_of_mem (List.mem_filter.mpr ⟨ranked, by simp [last]⟩)
    exact Outline.placeFault?_eq_none_iff.mpr
      ⟨known, _, get?_outline_of_mem checked isLoop, own⟩
  · intro name mem
    rw [layout.keys] at mem
    obtain ⟨c, ranked, rfl⟩ := List.mem_map.mp mem
    obtain ⟨loop, -, last⟩ := exists_innermost ok ranked
    have placed : d.outline.innermost.contains c.name = true :=
      Table.contains_iff_get?.mpr ⟨loop, (get?_innermost ok).mpr ⟨c, ranked, last, rfl⟩⟩
    have rank : d.outline.ranks.contains c.name = true :=
      Table.contains_iff_get?.mpr ⟨_, layout.get?_ranks mem⟩
    exact Outline.computationFault?_eq_none_iff.mpr ⟨placed, rank⟩

end Places

theorem fault?_eq_none_iff (checked : d.Checked) :
    d.outline.fault? = none ↔ d.WellFormed := by
  have ok := error?_eq_none_iff.mpr checked
  have layout := laidOut ok
  rw [Outline.fault?_eq_none_iff]
  constructor
  · rintro ⟨roots, walk, -⟩
    obtain ⟨linked, listed⟩ := (Outline.walkFault?_eq_none_iff roots).mp walk
    have children := (linked_iff checked).mp linked
    have once := (listed_iff checked).mp listed
    exact ⟨checked, (rootFaults_iff checked).mp roots, children, once,
      fun _ => reached_of_links checked children once⟩
  · intro well
    have roots := (rootFaults_iff checked).mpr well.roots
    obtain ⟨places, complete⟩ := placeFaults ok
    exact ⟨roots, (Outline.walkFault?_eq_none_iff roots).mpr
      ⟨(linked_iff checked).mpr well.children, (listed_iff checked).mpr well.once⟩,
      places, complete, layout.ranksFault?⟩

/-- Just the well-formed descriptions load. -/
theorem exists_nest?_iff : (∃ n, d.nest? = .ok n) ↔ d.WellFormed := by
  constructor
  · rintro ⟨n, loaded⟩
    simp only [nest?] at loaded
    split at loaded
    · cases loaded
    · next ok =>
      exact (fault?_eq_none_iff (error?_eq_none_iff.mp ok)).mp (Outline.nest?_eq_ok_iff.mp loaded).1
  · intro well
    have ok := error?_eq_none_iff.mpr well.toChecked
    have faultless := (fault?_eq_none_iff well.toChecked).mpr well
    exact ⟨d.outline.nest, by simp only [nest?, ok, Outline.nest?, faultless]⟩

theorem Leads.climbs (checked : d.Checked) {before after : List String} {parent : Option String}
    {name : String} (leads : d.Leads parent after)
    (above : ∀ outer, parent = some outer → d.outline.Climbs outer before)
    (first : parent = none → before = []) (last : after.getLast? = some name) :
    d.outline.Climbs name (before ++ after) := by
  induction leads generalizing before with
  | done => cases last
  | @down parent item names mem around below ih =>
    have here : d.outline.Climbs item.name (before ++ [item.name]) := by
      have found := get?_outline_of_mem checked mem
      cases parent with
      | none =>
        rw [first rfl]
        exact .top found around
      | some outer => exact .up found around (above outer rfl)
    rcases names with _ | ⟨inner, names⟩
    · obtain rfl : item.name = name := by simpa using last
      exact here
    · have down : d.outline.Climbs name (before ++ [item.name] ++ inner :: names) :=
        ih (fun outer same => Option.some.inj same ▸ here) nofun
          (by simpa [List.getLast?_cons_cons] using last)
      rwa [List.append_assoc] at down

section Loaded

variable {n : Nest} (loaded : d.nest? = .ok n)
include loaded

theorem chain_of_nest? {c : ComputationItem} (mem : c ∈ d.computations) :
    n.chain c.name = .ok (c.loops.zipIdx.map fun (loop, level) => ⟨loop, level⟩) := by
  have placed : n.Placed := (sound loaded).toPlaced
  obtain ⟨layout, found⟩ := outline_of_nest? loaded
  obtain ⟨faultless, rfl⟩ := Outline.nest?_eq_ok_iff.mp found
  have well := exists_nest?_iff.mp ⟨_, loaded⟩
  have checked := well.toChecked
  have roots := (rootFaults_iff checked).mpr well.roots
  have linked := (linked_iff checked).mpr well.children
  obtain ⟨f, unfolds, -, same⟩ := Outline.exists_unfolds layout.named faultless
  have inOrder : c.name ∈ d.outline.nest.order :=
    layout.order_nest ▸ List.mem_map_of_mem (d.ranked_perm.mem_iff.mpr mem)
  obtain ⟨outer, t, way, own, chain⟩ := placed.chain_ok inOrder
  rw [same] at way
  have last : c.loops.getLast? = some t.loop.name := by
    obtain ⟨e, entry, -, list, -⟩ := unfolds.of_way layout.named way
    obtain ⟨item, -, name, rfl⟩ := (get?_outline checked).mp entry
    rw [← list] at own
    obtain ⟨c', hc', sameName⟩ := List.mem_map.mp own
    obtain ⟨ranked, innermost⟩ := List.mem_filter.mp hc'
    cases List.inj_on_of_nodup_map checked.computations (d.ranked_perm.mem_iff.mp ranked) mem
      sameName
    rw [← name]
    simpa using innermost
  have outwards := (checked.chains c mem).2.climbs checked nofun (fun _ => rfl) last
  rw [chain, Nest.pathIds_eq, (unfolds.climbs layout.named roots linked way).unique outwards,
    List.nil_append]

theorem computations_of_nest? :
    ∃ sorted : List ComputationItem, sorted.Perm d.computations ∧
      (sorted.Pairwise fun c c' => c.order < c'.order) ∧
      n.computations = sorted.map fun c => ⟨c.name, c.expression⟩ := by
  obtain ⟨layout, found⟩ := outline_of_nest? loaded
  obtain ⟨-, rfl⟩ := Outline.nest?_eq_ok_iff.mp found
  have checked := (exists_nest?_iff.mp ⟨_, loaded⟩).toChecked
  refine ⟨d.ranked, d.ranked_perm, ?_, ?_⟩
  · exact pairwise_lt_sortBy checked.computations.of_map fun c hc c' hc' =>
      List.inj_on_of_nodup_map checked.orders hc hc'
  · have names : ((d.ranked.map fun c =>
        (c.name, (⟨c.name, c.expression⟩ : Computation))).map Prod.fst).Nodup := by
      rw [List.map_map]
      exact layout.unique
    rw [layout.computations_nest, outline, Table.values, Table.entries_ofList names, List.map_map]
    rfl

end Loaded

/-- A description loads exactly if it is well formed. Then each computation has the chain that was
described for it, and the computations execute by increasing order. -/
theorem loads_exactly (d : Description) :
    ((∃ n, d.nest? = .ok n) ↔ d.WellFormed) ∧
      ∀ n, d.nest? = .ok n →
        (∀ c ∈ d.computations,
          n.chain c.name = .ok (c.loops.zipIdx.map fun (loop, level) => ⟨loop, level⟩)) ∧
        ∃ sorted : List ComputationItem, sorted.Perm d.computations ∧
          (sorted.Pairwise fun c c' => c.order < c'.order) ∧
          n.computations = sorted.map fun c => ⟨c.name, c.expression⟩ :=
  ⟨exists_nest?_iff, fun _ loaded =>
    ⟨fun _ mem => chain_of_nest? loaded mem, computations_of_nest? loaded⟩⟩

end Description

theorem loads_blur :
    blur.WellFormed ∧
      blurNest.chain "columns" = .ok [⟨"v", 0⟩, ⟨"u", 1⟩] := by
  obtain ⟨loads, loaded⟩ := Description.loads_exactly blur
  obtain ⟨chains, -⟩ := loaded blurNest nest?_blur
  exact ⟨loads.mp ⟨blurNest, nest?_blur⟩,
    chains { name := "columns", order := 1, loops := ["v", "u"] } (by decide)⟩

end LoopNest
