import LoopNest.Proofs.Nest.Sections
import LoopNest.Proofs.Reachable

/-! The order of sections. A queue holds the trees whose sections are still to come, and those that
start below a section join its end. So the sections start at the root and then, section by section,
directly inside the loop where each ends; and all sections together hold every loop once. -/
namespace LoopNest

def start (waiting : Nat × Tree) : LoopId := ⟨waiting.2.loop.name, waiting.1⟩

theorem length_le_length_flatten {α : Type} {pieces : List (List α)}
    (nonempty : ∀ s ∈ pieces, s ≠ []) : pieces.length ≤ pieces.flatten.length := by
  induction pieces with
  | nil => exact Nat.le_refl 0
  | cons s pieces ih =>
    rw [List.forall_mem_cons] at nonempty
    have one : 0 < s.length := List.length_pos_iff.mpr nonempty.1
    have rest := ih nonempty.2
    rw [List.flatten_cons, List.length_append, List.length_cons]
    omega

namespace Nest

open Forest

/-- What the sections below a root are, and the order in which they come. -/
structure BreadthFirst (n : Nest) (root : LoopId) (sections : List Section) : Prop
    extends n.Sectioned root sections where
  starts : ∀ s ∈ sections, ∀ id, s.head? = some id →
    id = root ∨ ∃ around, n.Under root around ∧ id ∈ n.inside around ∧
      2 ≤ (n.inside around).length
  /-- The root's comes first. Then come those that start directly inside the last loop of the first
  section, then those that start directly inside the last loop of the second one, and so on. -/
  order : sections.filterMap List.head? =
    root :: (sections.filterMap List.getLast?).flatMap n.inside
  few : sections.length ≤ n.loops.size

variable {n : Nest}

theorem Placed.inside_eq_starts (h : n.Placed) {outer : List Loop} {t : Tree}
    (way : Way n.loops outer t) :
    n.inside ⟨t.loop.name, outer.length⟩ =
      (t.body.trees.map fun s => (outer.length + 1, s)).map start := by
  rw [h.inside_eq way rfl, ← map_loop_trees, List.map_map, List.map_map]
  rfl

theorem Placed.exists_last_runFrom (h : n.Placed) {loop : Loop} {own : List String} {f : Forest}
    {outer : List Loop} (way : Way n.loops outer ⟨loop, own, f⟩) :
    ∃ last, (LoopNest.runFrom outer.length loop f).1.getLast? = some last ∧
      n.inside last = (LoopNest.runFrom outer.length loop f).2.map start := by
  induction f generalizing loop own outer with
  | nil => exact ⟨_, rfl, h.inside_eq_starts way⟩
  | cons only inner body rest ih _ =>
    cases rest with
    | nil =>
      obtain ⟨last, isLast, inside⟩ := ih (way.trans .here)
      rw [List.length_append, List.length_singleton] at isLast inside
      refine ⟨last, ?_, inside⟩
      rw [LoopNest.runFrom, List.getLast?_cons, isLast, Option.getD_some]
    | cons => exact ⟨_, rfl, h.inside_eq_starts way⟩

theorem Placed.heads_sectionsFrom (h : n.Placed) {queue : List (Nat × Tree)}
    (waiting : n.Waiting queue) :
    (LoopNest.sectionsFrom queue).filterMap List.head? =
      queue.map start ++
        ((LoopNest.sectionsFrom queue).filterMap List.getLast?).flatMap n.inside := by
  fun_induction LoopNest.sectionsFrom queue with
  | case1 => rfl
  | case2 level t queue ih =>
    obtain ⟨outer, way, rfl⟩ := waiting _ List.mem_cons_self
    obtain ⟨first, -, below⟩ := h.runFrom way
    obtain ⟨last, isLast, inside⟩ := h.exists_last_runFrom way
    have rest := ih (List.forall_mem_append.mpr
      ⟨fun later mem => waiting later (List.mem_cons_of_mem _ mem), below⟩)
    rw [List.filterMap_cons_some first, List.filterMap_cons_some isLast, List.flatMap_cons, inside,
      rest, List.map_append, List.append_assoc]
    rfl

theorem Placed.nodup_ids (h : n.Placed) : (n.loops.ids 0).Nodup := by
  have names := h.names
  rw [← map_name_ids 0] at names
  exact names.of_map

theorem flatMap_sections_perm (n : Nest) :
    (n.sections.flatMap fun below => below.2.flatten).Perm (n.loops.ids 0) := by
  have sorted := (List.mergeSort_perm (n.loops.trees.map fun t =>
    ((⟨t.loop.name, 0⟩ : LoopId), LoopNest.sectionsFrom [(0, t)]))
      fun a b => a.1.le b.1).flatMap_right fun below => below.2.flatten
  rw [List.flatMap_map] at sorted
  refine sorted.trans ?_
  rw [← flatMap_ids_trees, List.flatMap_map]
  exact List.Perm.flatMap_left _ fun t _ => by simpa using flatten_sectionsFrom_perm [(0, t)]

/-- The sections below a root come in breadth-first order. -/
theorem Placed.breadthFirst (h : n.Placed) {root : LoopId} {sections : List Section}
    (mem : (root, sections) ∈ n.sections) : n.BreadthFirst root sections := by
  have sec := h.sectioned mem
  have order : sections.filterMap List.head? =
      root :: (sections.filterMap List.getLast?).flatMap n.inside := by
    obtain ⟨t, top, same⟩ := List.mem_map.mp ((List.mergeSort_perm _ _).mem_iff.mp mem)
    cases same
    refine h.heads_sectionsFrom fun waiting mem => ?_
    rw [List.mem_singleton.mp mem]
    exact ⟨[], way_of_mem_trees top, rfl⟩
  refine ⟨sec, fun s inSections id first => ?_, order, ?_⟩
  · have head : id ∈ sections.filterMap List.head? := List.mem_filterMap.mpr ⟨s, inSections, first⟩
    rw [order, List.mem_cons, List.mem_flatMap] at head
    refine head.imp_right fun ⟨around, isEnd, inside⟩ => ?_
    obtain ⟨s', among, last⟩ := List.mem_filterMap.mp isEnd
    have several := (sec.unbranched s' among).ends around last
    have some_inside := List.length_pos_of_mem inside
    refine ⟨around, (sec.mem_iff around).mp ?_, inside, by omega⟩
    exact List.mem_flatten.mpr ⟨s', among, List.mem_of_getLast? last⟩
  · have known : sections.flatten.Subperm (n.loops.ids 0) := by
      refine (List.subperm_of_subset sec.nodup fun id inSome => ?_).trans
        (flatMap_sections_perm n).subperm
      exact List.mem_flatMap.mpr ⟨_, mem, inSome⟩
    calc sections.length ≤ sections.flatten.length :=
          length_le_length_flatten fun s among => (sec.unbranched s among).nonempty
      _ ≤ (n.loops.ids 0).length := known.length_le
      _ = n.loops.size := by
          rw [← length_names, ← map_name_ids 0, List.length_map]

end Nest

/-- The sections of a reachable nest are listed by its roots. Those below a root are rows of only
children that cannot go on, hold the root and each loop below it once, and come in breadth-first
order; all together they hold each loop of the nest once. -/
theorem Reachable.sections_partition {n : Nest} (reached : Reachable n) :
    (n.sections.map Prod.fst).Perm n.roots ∧ n.roots.Nodup ∧
      (∀ root sections, (root, sections) ∈ n.sections → n.BreadthFirst root sections) ∧
      (n.sections.flatMap fun below => below.2.flatten).Nodup ∧
      ∀ id, id ∈ n.sections.flatMap (fun below => below.2.flatten) ↔ n.contains id = true := by
  have h := reached.placed
  have perm := n.flatMap_sections_perm
  refine ⟨n.keys_sections_perm, h.roots_nodup, fun root sections => h.breadthFirst,
    perm.nodup_iff.mpr h.nodup_ids, fun id => ?_⟩
  rw [perm.mem_iff, Forest.mem_ids_iff, h.contains_iff]
  constructor
  · rintro ⟨outer, t, way, rfl⟩
    exact ⟨outer, t, way, rfl, (Nat.zero_add _).symm⟩
  · rintro ⟨outer, t, way, name, deep⟩
    exact ⟨outer, t, way, LoopId.ext name.symm (deep.symm.trans (Nat.zero_add _).symm)⟩

def branches : List Declaration := [
  .loop ⟨"i", none, .concrete 0, .concrete 10⟩,
  .loop ⟨"a", some "i", .concrete 0, .concrete 10⟩,
  .loop ⟨"c", some "a", .concrete 0, .concrete 10⟩,
  .loop ⟨"d", some "a", .concrete 0, .concrete 10⟩,
  .loop ⟨"b", some "i", .concrete 0, .concrete 10⟩,
  .loop ⟨"e", some "b", .concrete 0, .concrete 10⟩,
  .computation ⟨"s0", "c", ""⟩, .computation ⟨"s1", "d", ""⟩, .computation ⟨"s2", "e", ""⟩]

def branchesNest : Nest where
  loops :=
    .cons { name := "i", lower := .concrete 0, upper := .concrete 10 } []
      (.cons { name := "a", lower := .concrete 0, upper := .concrete 10 } []
        (.cons { name := "c", lower := .concrete 0, upper := .concrete 10 } ["s0"] .nil <|
          .cons { name := "d", lower := .concrete 0, upper := .concrete 10 } ["s1"] .nil .nil) <|
        .cons { name := "b", lower := .concrete 0, upper := .concrete 10 } []
          (.cons { name := "e", lower := .concrete 0, upper := .concrete 10 } ["s2"] .nil .nil)
          .nil)
      .nil
  computations := [⟨"s0", ""⟩, ⟨"s1", ""⟩, ⟨"s2", ""⟩]

theorem sections_branches : Reachable branchesNest ∧
    branchesNest.BreadthFirst ⟨"i", 0⟩
      [[⟨"i", 0⟩], [⟨"a", 1⟩], [⟨"b", 1⟩, ⟨"e", 2⟩], [⟨"c", 2⟩], [⟨"d", 2⟩]] := by
  have put : Declaration.nest? branches = .ok branchesNest := by cbv
  have reached : Reachable branchesNest := .declared put
  obtain ⟨-, -, below, -⟩ := reached.sections_partition
  have listed : branchesNest.sections = [(⟨"i", 0⟩,
      [[⟨"i", 0⟩], [⟨"a", 1⟩], [⟨"b", 1⟩, ⟨"e", 2⟩], [⟨"c", 2⟩], [⟨"d", 2⟩]])] := by decide +kernel
  exact ⟨reached, below _ _ (listed ▸ List.mem_cons_self)⟩

end LoopNest
