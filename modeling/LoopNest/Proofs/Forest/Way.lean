import Mathlib.Data.List.Nodup
import Mathlib.Data.List.Perm.Subperm
import LoopNest.Nest.Basic
import LoopNest.Proofs.Table

/-! Ways down a forest: which loops enclose a loop, in order. Every question about a loop's place is
answered by the way to it: its level is the length of the way, its parent the last loop on it. Two
ways run together for a while and then have no loop in common. -/
namespace LoopNest

def Tree.under (t : Tree) : List String := t.computations ++ t.body.computations

theorem nodup_middle {before after : List Loop} {x : Loop}
    (unique : ((before ++ x :: after).map Loop.name).Nodup) :
    x.name ∉ (before ++ after).map Loop.name ∧ ((before ++ after).map Loop.name).Nodup :=
  List.nodup_cons.mp ((List.perm_middle.map Loop.name).nodup_iff.mp unique)

theorem exists_cut {α : Type} {l : List α} {k : Nat} {a : α} (met : l[k]? = some a) :
    ∃ before after, l = before ++ a :: after ∧ before.length = k := by
  obtain ⟨short, rfl⟩ := List.getElem?_eq_some_iff.mp met
  refine ⟨l.take k, l.drop (k + 1), ?_, ?_⟩
  · rw [List.getElem_cons_drop, List.take_append_drop]
  · rw [List.length_take]
    omega

namespace Forest

def subtrees : Forest → List Tree
  | nil => []
  | cons loop own body rest => ⟨loop, own, body⟩ :: (body.subtrees ++ rest.subtrees)

/-- The loops around a loop of a forest, outermost first. -/
inductive Way : Forest → List Loop → Tree → Prop where
  | here {loop own body rest} : Way (cons loop own body rest) [] ⟨loop, own, body⟩
  | inside {loop own body rest outer t} (way : Way body outer t) :
    Way (cons loop own body rest) (loop :: outer) t
  | beside {loop own body rest outer t} (way : Way rest outer t) :
    Way (cons loop own body rest) outer t

theorem names_append (f g : Forest) : (f ++ g).names = f.names ++ g.names := by
  simp [names]

theorem names_cons (loop : Loop) (own : List String) (body rest : Forest) :
    (cons loop own body rest).names = loop.name :: (body.names ++ rest.names) := by
  simp [names, loops]

theorem length_names (f : Forest) : f.names.length = f.size := by
  rw [names, List.length_map, length_loops]

theorem map_loop_subtrees (f : Forest) : f.subtrees.map Tree.loop = f.loops := by
  induction f with
  | nil => rfl
  | cons loop own body rest ihBody ihRest => simp [subtrees, loops, ihBody, ihRest]

theorem flatMap_computations_subtrees (f : Forest) :
    f.subtrees.flatMap Tree.computations = f.computations := by
  induction f with
  | nil => rfl
  | cons loop own body rest ihBody ihRest => simp [subtrees, computations, ihBody, ihRest]

theorem map_name_subtrees (f : Forest) : f.subtrees.map (fun t => t.loop.name) = f.names := by
  rw [names, ← map_loop_subtrees, List.map_map]
  rfl

theorem find?_eq (name : String) (f : Forest) :
    f.find? name = f.subtrees.find? fun t => t.loop.name == name := by
  induction f with
  | nil => rfl
  | cons loop own body rest ihBody ihRest =>
    by_cases same : loop.name = name
    · simp [find?, subtrees, same]
    · simp [find?, subtrees, same, ihBody, ihRest, List.find?_append]

theorem Way.mem_subtrees {f : Forest} {outer : List Loop} {t : Tree} (way : Way f outer t) :
    t ∈ f.subtrees := by
  induction way with
  | here => simp [subtrees]
  | inside _ ih => simp [subtrees, ih]
  | beside _ ih => simp [subtrees, ih]

theorem exists_way {f : Forest} {t : Tree} (mem : t ∈ f.subtrees) : ∃ outer, Way f outer t := by
  induction f with
  | nil => simp [subtrees] at mem
  | cons loop own body rest ihBody ihRest =>
    simp only [subtrees, List.mem_cons, List.mem_append] at mem
    rcases mem with rfl | mem | mem
    · exact ⟨[], .here⟩
    · obtain ⟨outer, way⟩ := ihBody mem
      exact ⟨loop :: outer, .inside way⟩
    · obtain ⟨outer, way⟩ := ihRest mem
      exact ⟨outer, .beside way⟩

theorem under_sublist {f : Forest} {t : Tree} (mem : t ∈ f.subtrees) :
    t.under.Sublist f.computations := by
  induction f with
  | nil => simp [subtrees] at mem
  | cons loop own body rest ihBody ihRest =>
    simp only [subtrees, List.mem_cons, List.mem_append] at mem
    rw [computations]
    rcases mem with rfl | mem | mem
    · exact (List.sublist_append_left body.computations _).append_left own
    · exact ((ihBody mem).trans (List.sublist_append_left _ _)).trans
        (List.sublist_append_right _ _)
    · exact ((ihRest mem).trans (List.sublist_append_right _ _)).trans
        (List.sublist_append_right _ _)

theorem Way.sublist {f : Forest} {outer : List Loop} {t : Tree} (way : Way f outer t) :
    (outer ++ [t.loop]).Sublist f.loops := by
  induction way with
  | here => simp [loops]
  | inside _ ih =>
    simp only [loops, List.cons_append]
    exact (ih.trans (List.sublist_append_left _ _)).cons_cons _
  | beside _ ih =>
    simp only [loops]
    exact (ih.trans (List.sublist_append_right _ _)).cons _

theorem Way.mem_loops {f : Forest} {outer : List Loop} {t : Tree} (way : Way f outer t) :
    t.loop ∈ f.loops :=
  way.sublist.subset (by simp)

theorem Way.mem_names {f : Forest} {outer : List Loop} {t : Tree} (way : Way f outer t) :
    t.loop.name ∈ f.names :=
  List.mem_map_of_mem way.mem_loops

theorem Way.nodup {f : Forest} {outer : List Loop} {t : Tree} (way : Way f outer t)
    (unique : f.names.Nodup) : ((outer ++ [t.loop]).map Loop.name).Nodup :=
  (way.sublist.map Loop.name).nodup unique

/-- A way leads on from a loop on it: what stands there has the rest of the way. -/
theorem Way.split {f : Forest} {before after : List Loop} {loop : Loop} {t : Tree}
    (way : Way f (before ++ loop :: after) t) :
    ∃ s, Way f before s ∧ s.loop = loop ∧ Way s.body after t := by
  generalize same : before ++ loop :: after = outer at way
  induction way generalizing before with
  | here => simp at same
  | inside way ih =>
    cases before with
    | nil =>
      obtain ⟨rfl, rfl⟩ := List.cons.inj same
      exact ⟨_, .here, rfl, way⟩
    | cons first before =>
      obtain ⟨rfl, rest⟩ := List.cons.inj same
      obtain ⟨s, leads, isLoop, below⟩ := ih rest
      exact ⟨s, .inside leads, isLoop, below⟩
  | beside way ih =>
    obtain ⟨s, leads, isLoop, below⟩ := ih same
    exact ⟨s, .beside leads, isLoop, below⟩

theorem Way.exists_at {f : Forest} {outer : List Loop} {t : Tree} (way : Way f outer t)
    {level : Nat} {loop : Loop} (met : (outer ++ [t.loop])[level]? = some loop) :
    ∃ before s, Way f before s ∧ s.loop = loop ∧ before.length = level := by
  obtain ⟨short, same⟩ := List.getElem?_eq_some_iff.mp met
  by_cases inner : level < outer.length
  · rw [List.getElem?_append_left inner] at met
    obtain ⟨before, after, rfl, deep⟩ := exists_cut met
    obtain ⟨s, leads, isLoop, -⟩ := way.split
    exact ⟨before, s, leads, isLoop, deep⟩
  · have last : level = outer.length := by
      rw [List.length_append, List.length_singleton] at short
      omega
    exact ⟨outer, t, way, by simp [← same, last], last.symm⟩

theorem Way.trans {f : Forest} {before after : List Loop} {s t : Tree} (way : Way f before s)
    (below : Way s.body after t) : Way f (before ++ s.loop :: after) t := by
  induction way with
  | here => exact .inside below
  | inside _ ih => exact .inside (ih below)
  | beside _ ih => exact .beside (ih below)

theorem Way.append_left {f : Forest} {outer : List Loop} {t : Tree} (way : Way f outer t)
    (g : Forest) : Way (f ++ g) outer t := by
  induction way with
  | here => exact .here
  | inside way => exact .inside way
  | beside _ ih => exact .beside ih

theorem Way.append_right {g : Forest} {outer : List Loop} {t : Tree} (way : Way g outer t)
    (f : Forest) : Way (f ++ g) outer t := by
  induction f with
  | nil => exact way
  | cons loop own body rest _ ih => exact .beside ih

theorem eq_of_name_eq {f : Forest} (unique : f.names.Nodup) {s t : Tree} (hs : s ∈ f.subtrees)
    (ht : t ∈ f.subtrees) (same : s.loop.name = t.loop.name) : s = t := by
  rw [← map_name_subtrees] at unique
  exact List.inj_on_of_nodup_map unique hs ht same

theorem find?_eq_some_iff {f : Forest} (unique : f.names.Nodup) {name : String} {t : Tree} :
    f.find? name = some t ↔ t ∈ f.subtrees ∧ t.loop.name = name := by
  rw [← map_name_subtrees] at unique
  rw [find?_eq]
  exact find?_key_eq_some_iff unique

theorem exists_find? {f : Forest} {name : String} (mem : name ∈ f.names) :
    ∃ t, f.find? name = some t := by
  rw [← map_name_subtrees, List.mem_map] at mem
  obtain ⟨t, mem, rfl⟩ := mem
  rw [find?_eq, ← Option.isSome_iff_exists, List.find?_isSome]
  exact ⟨t, mem, by simp⟩

theorem tops_sublist (f : Forest) : f.tops.Sublist f.loops := by
  induction f with
  | nil => exact .slnil
  | cons loop own body rest _ ih => exact (ih.trans (List.sublist_append_right _ _)).cons_cons loop

theorem Way.names_sublist {f : Forest} {outer : List Loop} {t : Tree} (way : Way f outer t) :
    (t.loop.name :: t.body.names).Sublist f.names := by
  induction way with
  | here =>
    rw [names_cons]
    exact (List.sublist_append_left _ _).cons_cons _
  | inside _ ih =>
    rw [names_cons]
    exact (ih.trans (List.sublist_append_left _ _)).cons _
  | beside _ ih =>
    rw [names_cons]
    exact (ih.trans (List.sublist_append_right _ _)).cons _

theorem Way.names_body_subset {f : Forest} {outer : List Loop} {t : Tree} (way : Way f outer t) :
    t.body.names ⊆ f.names :=
  fun _ mem => way.names_sublist.subset (List.mem_cons_of_mem _ mem)

theorem map_loop_trees (f : Forest) : f.trees.map Tree.loop = f.tops := by
  induction f with
  | nil => rfl
  | cons loop own body rest _ ih => simp [trees, tops, ih]

theorem way_of_mem_trees {f : Forest} {t : Tree} (mem : t ∈ f.trees) : Way f [] t := by
  induction f with
  | nil => cases mem
  | cons loop own body rest _ ih =>
    rcases List.mem_cons.mp mem with rfl | mem
    · exact .here
    · exact .beside (ih mem)

theorem exists_way_of_mem_tops {f : Forest} {loop : Loop} (mem : loop ∈ f.tops) :
    ∃ t, Way f [] t ∧ t.loop = loop := by
  induction f with
  | nil => simp [tops] at mem
  | cons first own body rest _ ih =>
    rcases List.mem_cons.mp mem with rfl | mem
    · exact ⟨_, .here, rfl⟩
    · obtain ⟨t, way, same⟩ := ih mem
      exact ⟨t, .beside way, same⟩

theorem Way.mem_tops {f : Forest} {t : Tree} (way : Way f [] t) : t.loop ∈ f.tops := by
  generalize outermost : [] = outer at way
  induction way with
  | here => simp [tops]
  | inside => cases outermost
  | beside _ ih => exact List.mem_cons_of_mem _ (ih outermost)

theorem Way.head_mem_tops {f : Forest} {outer : List Loop} {t : Tree} (way : Way f outer t) :
    ∃ top ∈ f.tops, (outer ++ [t.loop]).head? = some top := by
  cases outer with
  | nil => exact ⟨t.loop, way.mem_tops, rfl⟩
  | cons top outer =>
    obtain ⟨s, first, rfl, -⟩ := @Way.split f [] outer top t way
    exact ⟨s.loop, first.mem_tops, rfl⟩

end Forest
end LoopNest
