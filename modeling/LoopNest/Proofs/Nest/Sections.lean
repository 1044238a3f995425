import Mathlib.Data.List.Chain
import LoopNest.Proofs.Nest.Inside

/-! Sections cut a nest into pieces. Below each root every loop stands in one section, once. Along a
section each loop is the only one inside the one before it, and a section ends only where it must:
at a loop with none or several loops inside it. -/
namespace LoopNest

namespace Forest

def ids (level : Nat) : Forest → List LoopId
  | nil => []
  | cons loop _ body rest => ⟨loop.name, level⟩ :: (body.ids (level + 1) ++ rest.ids level)

theorem map_name_ids (level : Nat) (f : Forest) : (f.ids level).map LoopId.name = f.names := by
  induction f generalizing level with
  | nil => rfl
  | cons loop own body rest ihBody ihRest => simp [ids, names_cons, ihBody, ihRest]

theorem mem_ids_iff {level : Nat} {f : Forest} {id : LoopId} :
    id ∈ f.ids level ↔
      ∃ outer t, Way f outer t ∧ id = ⟨t.loop.name, level + outer.length⟩ := by
  induction f generalizing level with
  | nil =>
    simp only [ids, List.not_mem_nil, false_iff]
    rintro ⟨outer, t, way, -⟩
    cases way
  | cons loop own body rest ihBody ihRest =>
    simp only [ids, List.mem_cons, List.mem_append, ihBody, ihRest]
    constructor
    · rintro (rfl | ⟨inner, t, within, rfl⟩ | ⟨outer, t, behind, rfl⟩)
      · exact ⟨[], _, .here, rfl⟩
      · exact ⟨loop :: inner, t, .inside within, by simp; omega⟩
      · exact ⟨outer, t, .beside behind, rfl⟩
    · rintro ⟨outer, t, way, rfl⟩
      rcases way_cons_iff.mp way with ⟨rfl, rfl⟩ | ⟨inner, rfl, within⟩ | behind
      · exact .inl rfl
      · exact .inr (.inl ⟨inner, t, within, by simp; omega⟩)
      · exact .inr (.inr ⟨outer, t, behind, rfl⟩)

end Forest

def Tree.ids (level : Nat) (t : Tree) : List LoopId :=
  ⟨t.loop.name, level⟩ :: t.body.ids (level + 1)

theorem flatMap_ids_trees (level : Nat) (f : Forest) :
    (f.trees.map fun t => (level, t)).flatMap (fun waiting => waiting.2.ids waiting.1) =
      f.ids level := by
  induction f with
  | nil => rfl
  | cons loop own body rest _ ih =>
    rw [Forest.trees, List.map_cons, List.flatMap_cons, ih]
    rfl

theorem runFrom_perm (level : Nat) (loop : Loop) (f : Forest) :
    ((runFrom level loop f).1 ++
      (runFrom level loop f).2.flatMap fun waiting => waiting.2.ids waiting.1).Perm
        (⟨loop.name, level⟩ :: f.ids (level + 1)) := by
  fun_induction runFrom level loop f with
  | case1 level loop only own body below ih =>
    simpa only [Forest.ids, List.append_nil, List.cons_append] using ih.cons _
  | case2 level loop row => rw [flatMap_ids_trees, List.singleton_append]

/-- The sections of trees that wait in a queue are all their loops. -/
theorem flatten_sectionsFrom_perm (queue : List (Nat × Tree)) :
    (sectionsFrom queue).flatten.Perm (queue.flatMap fun waiting => waiting.2.ids waiting.1) := by
  fun_induction sectionsFrom queue with
  | case1 => exact .refl _
  | case2 level t queue ih =>
    rw [List.flatMap_append] at ih
    have behind := (ih.trans List.perm_append_comm).append_left (runFrom level t.loop t.body).1
    rw [← List.append_assoc] at behind
    exact behind.trans ((runFrom_perm level t.loop t.body).append_right _)

namespace Nest

open Forest

/-- A row of loops each of which is the only one inside the one before it, and which cannot go on:
the last has none or several loops inside it. -/
structure Unbranched (n : Nest) (s : Section) : Prop where
  nonempty : s ≠ []
  only : s.IsChain n.OnlyChild
  ends : ∀ id, s.getLast? = some id → (n.inside id).length ≠ 1

/-- What the sections below a root are. -/
structure Sectioned (n : Nest) (root : LoopId) (sections : List Section) : Prop where
  unbranched : ∀ s ∈ sections, n.Unbranched s
  nodup : sections.flatten.Nodup
  mem_iff : ∀ id, id ∈ sections.flatten ↔ n.Under root id

/-- The trees of a queue stand in the nest, at the levels given. -/
def Waiting (n : Nest) (queue : List (Nat × Tree)) : Prop :=
  ∀ waiting ∈ queue, ∃ outer, Way n.loops outer waiting.2 ∧ outer.length = waiting.1

variable {n : Nest}

theorem waiting_trees {before : List Loop} {t : Tree} (way : Way n.loops before t) :
    n.Waiting (t.body.trees.map fun s => (before.length + 1, s)) := by
  intro waiting mem
  obtain ⟨s, inner, rfl⟩ := List.mem_map.mp mem
  exact ⟨_, way.trans (way_of_mem_trees inner), by simp⟩

theorem Placed.unbranched_singleton (h : n.Placed) {outer : List Loop} {t : Tree}
    (way : Way n.loops outer t) (several : t.body.tops.length ≠ 1) :
    n.Unbranched [⟨t.loop.name, outer.length⟩] := by
  refine ⟨List.cons_ne_nil _ _, .singleton _, fun id last => ?_⟩
  cases last
  rwa [h.inside_eq way rfl, List.length_map]

theorem Placed.unbranched_cons (h : n.Placed) {outer : List Loop} {t : Tree} {only : Loop}
    (way : Way n.loops outer t) (single : t.body.tops = [only]) {s : Section}
    (first : s.head? = some ⟨only.name, outer.length + 1⟩) (below : n.Unbranched s) :
    n.Unbranched (⟨t.loop.name, outer.length⟩ :: s) := by
  refine ⟨List.cons_ne_nil _ _, List.isChain_cons.mpr ⟨fun id next => ?_, below.only⟩,
    fun id last => ?_⟩
  · cases first.symm.trans next
    rw [OnlyChild, h.inside_eq way rfl, single, List.map_singleton]
  · obtain ⟨next, rest, rfl⟩ := List.exists_cons_of_ne_nil below.nonempty
    rw [List.getLast?_cons_cons] at last
    exact below.ends id last

theorem Placed.runFrom (h : n.Placed) {loop : Loop} {own : List String} {f : Forest}
    {outer : List Loop} (way : Way n.loops outer ⟨loop, own, f⟩) :
    (LoopNest.runFrom outer.length loop f).1.head? = some ⟨loop.name, outer.length⟩ ∧
      n.Unbranched (LoopNest.runFrom outer.length loop f).1 ∧
      n.Waiting (LoopNest.runFrom outer.length loop f).2 := by
  induction f generalizing loop own outer with
  | nil => exact ⟨rfl, h.unbranched_singleton way (by simp [tops]), waiting_trees way⟩
  | cons only inner body rest ih _ =>
    cases rest with
    | nil =>
      obtain ⟨first, below, waiting⟩ := ih (way.trans .here)
      rw [List.length_append, List.length_singleton] at first below waiting
      exact ⟨rfl, h.unbranched_cons way rfl first below, waiting⟩
    | cons => exact ⟨rfl, h.unbranched_singleton way (by simp [tops]), waiting_trees way⟩

theorem Placed.sectionsFrom (h : n.Placed) {queue : List (Nat × Tree)} (waiting : n.Waiting queue) :
    ∀ s ∈ LoopNest.sectionsFrom queue, n.Unbranched s := by
  fun_induction LoopNest.sectionsFrom queue with
  | case1 => simp
  | case2 level t queue ih =>
    obtain ⟨outer, way, deep⟩ := waiting _ List.mem_cons_self
    cases deep
    obtain ⟨-, run, below⟩ := h.runFrom way
    have rest := ih fun later mem => by
      rcases List.mem_append.mp mem with mem | mem
      · exact waiting later (List.mem_cons_of_mem _ mem)
      · exact below later mem
    exact List.forall_mem_cons.mpr ⟨run, rest⟩

/-- The sections are listed by the roots. -/
theorem keys_sections_perm (n : Nest) : (n.sections.map Prod.fst).Perm n.roots := by
  refine ((List.mergeSort_perm _ _).map Prod.fst).trans (.of_eq ?_)
  rw [roots, ← map_loop_trees, List.map_map, List.map_map]
  rfl

theorem Placed.roots_nodup (h : n.Placed) : n.roots.Nodup := by
  have names : (n.roots.map LoopId.name).Nodup := by
    rw [roots, List.map_map]
    exact ((tops_sublist n.loops).map Loop.name).nodup h.names
  exact names.of_map

theorem Placed.mem_ids_iff_under (h : n.Placed) {t : Tree} (way : Way n.loops [] t) {id : LoopId} :
    id ∈ t.ids 0 ↔ n.Under ⟨t.loop.name, 0⟩ id := by
  rw [Tree.ids, List.mem_cons, mem_ids_iff]
  constructor
  · rintro (rfl | ⟨inner, s, within, rfl⟩)
    · exact ⟨⟨[], t, way, rfl, rfl⟩, .inl rfl⟩
    · have leads := way.trans within
      exact ⟨⟨_, s, leads, rfl, by simp; omega⟩, .inr ⟨_, s, leads, rfl, by simp⟩⟩
  · rintro ⟨⟨outer, s, leads, name, deep⟩, rfl | ⟨outer', s', leads', name', mem⟩⟩
    · exact .inl rfl
    · obtain ⟨rfl, rfl⟩ := leads'.eq_of_name_eq h.names leads (name'.trans name.symm)
      obtain ⟨after, rfl, below⟩ := leads.past h.names way mem
      exact .inr ⟨after, s', below, LoopId.ext name.symm (by simpa [Nat.add_comm] using deep.symm)⟩

/-- The sections below a root are rows without branches that hold each loop there once. -/
theorem Placed.sectioned (h : n.Placed) {root : LoopId} {sections : List Section}
    (mem : (root, sections) ∈ n.sections) : n.Sectioned root sections := by
  obtain ⟨t, top, same⟩ := List.mem_map.mp ((List.mergeSort_perm _ _).mem_iff.mp mem)
  cases same
  have way := way_of_mem_trees top
  have waiting : n.Waiting [(0, t)] := by
    intro later mem
    cases List.mem_singleton.mp mem
    exact ⟨[], way, rfl⟩
  have perm : (LoopNest.sectionsFrom [(0, t)]).flatten.Perm (t.ids 0) := by
    simpa using flatten_sectionsFrom_perm [(0, t)]
  have unique : (t.ids 0).Nodup := by
    have names : ((t.ids 0).map LoopId.name).Nodup := by
      rw [Tree.ids, List.map_cons, map_name_ids]
      exact way.names_sublist.nodup h.names
    exact names.of_map
  exact ⟨h.sectionsFrom waiting, perm.nodup_iff.mpr unique, fun id =>
    perm.mem_iff.trans (h.mem_ids_iff_under way)⟩

end Nest
end LoopNest
