import Mathlib.Logic.Equiv.Basic
import LoopNest.Proofs.Forest.Edit

/-! Fusing two loops of one row. What stood at the second loop or inside it now stands at the first
or inside it; no other way changes. So on the way to a computation the first loop takes the second
one's place. -/
namespace LoopNest

/-- Puts a loop in the place of the loop of a name. -/
def redirect (name : String) (target loop : Loop) : Loop :=
  if loop.name = name then target else loop

theorem map_redirect_of_notMem {name : String} {target : Loop} {path : List Loop}
    (absent : name ∉ path.map Loop.name) : path.map (redirect name target) = path := by
  refine (List.map_congr_left fun loop mem => ?_).trans (List.map_id path)
  have differs : loop.name ≠ name := fun same => absent (same ▸ List.mem_map_of_mem mem)
  simp [redirect, differs]

theorem map_redirect_of_nodup {before after : List Loop} {loop target : Loop}
    (unique : ((before ++ loop :: after).map Loop.name).Nodup) :
    (before ++ loop :: after).map (redirect loop.name target) = before ++ target :: after := by
  have absent := (nodup_middle unique).1
  rw [List.map_append, List.mem_append, not_or] at absent
  rw [List.map_append, List.map_cons, map_redirect_of_notMem absent.1,
    map_redirect_of_notMem absent.2, redirect, if_pos rfl]

theorem nodup_map_redirect (name : String) {target : Loop} {path : List Loop}
    (absent : target.name ∉ path.map Loop.name) (unique : (path.map Loop.name).Nodup) :
    ((path.map (redirect name target)).map Loop.name).Nodup := by
  have exchanged : (path.map (redirect name target)).map Loop.name =
      (path.map Loop.name).map (Equiv.swap target.name name) := by
    rw [List.map_map, List.map_map]
    refine List.map_congr_left fun loop mem => ?_
    have differs : loop.name ≠ target.name := fun same => absent (same ▸ List.mem_map_of_mem mem)
    simp only [Function.comp_apply, redirect, Equiv.swap_apply_def, differs, if_false]
    split <;> rfl
  rw [exchanged]
  exact unique.map (Equiv.swap target.name name).injective

namespace Forest

/-- Taking a loop out leaves the ways that do not lead by it. -/
theorem Way.erase {name : String} {f : Forest} {outer : List Loop} {t : Tree} (way : Way f outer t)
    (unique : f.names.Nodup) (apart : name ∉ (outer ++ [t.loop]).map Loop.name) :
    Way (f.erase name) outer ⟨t.loop, t.computations, t.body.erase name⟩ := by
  induction way with
  | @here loop own body rest =>
    have differs : loop.name ≠ name := by simpa [eq_comm] using apart
    rw [Forest.erase, if_neg differs]
    exact .here
  | @inside loop own body rest outer t way ih =>
    obtain ⟨-, -, uniqueBody, -⟩ := nodup_names_cons.mp unique
    rw [List.cons_append, List.map_cons, List.mem_cons, not_or] at apart
    rw [Forest.erase, if_neg (Ne.symm apart.1)]
    exact .inside (ih uniqueBody apart.2)
  | @beside loop own body rest outer t way ih =>
    obtain ⟨-, absent, -, uniqueRest, -⟩ := nodup_names_cons.mp unique
    by_cases first : loop.name = name
    · have outside : name ∉ t.body.names := fun mem =>
        absent (first ▸ way.names_body_subset mem)
      rw [Forest.erase, if_pos first, erase_of_notMem outside]
      exact way
    · rw [Forest.erase, if_neg first]
      exact .beside (ih uniqueRest apart)

theorem map_name_tops_erase {f : Forest} (unique : f.names.Nodup) (name : String) :
    (f.erase name).tops.map Loop.name = (f.tops.map Loop.name).filter fun top => top ≠ name := by
  induction f with
  | nil => rfl
  | cons loop own body rest _ ih =>
    obtain ⟨-, absent, -, uniqueRest, -⟩ := nodup_names_cons.mp unique
    have behind := ih uniqueRest
    by_cases same : loop.name = name
    · rw [erase_of_notMem (same ▸ absent)] at behind
      rw [Forest.erase, if_pos same, tops, List.map_cons, List.filter_cons_of_neg (by simp [same]),
        ← behind]
    · simp [Forest.erase, same, tops, behind]

section Extend

variable {name : String} {own : List String} {more : Forest}

theorem Way.extend_self {f : Forest} (unique : f.names.Nodup) {outer : List Loop} {t : Tree}
    (way : Way f outer t) (same : t.loop.name = name) :
    Way (Forest.extend name own more f) outer ⟨t.loop, t.computations ++ own, t.body ++ more⟩ := by
  induction way with
  | here =>
    rw [Forest.extend, if_pos same]
    exact .here
  | @inside loop inner body rest outer t way ih =>
    obtain ⟨apart, -, uniqueBody, -⟩ := nodup_names_cons.mp unique
    have differs : loop.name ≠ name := by
      rintro rfl
      exact apart (same ▸ way.mem_names)
    rw [Forest.extend, if_neg differs]
    exact .inside (ih uniqueBody same)
  | @beside loop inner body rest outer t way ih =>
    obtain ⟨-, apart, -, uniqueRest, -⟩ := nodup_names_cons.mp unique
    have differs : loop.name ≠ name := by
      rintro rfl
      exact apart (same ▸ way.mem_names)
    rw [Forest.extend, if_neg differs]
    exact .beside (ih uniqueRest same)

theorem Way.extend_other {f : Forest} (unique : f.names.Nodup) {outer : List Loop} {t : Tree}
    (way : Way f outer t) (differs : t.loop.name ≠ name) :
    Way (Forest.extend name own more f) outer
      ⟨t.loop, t.computations, Forest.extend name own more t.body⟩ := by
  induction way with
  | here =>
    rw [Forest.extend, if_neg differs]
    exact .here
  | @inside loop inner body rest outer t way ih =>
    obtain ⟨apart, -, uniqueBody, -⟩ := nodup_names_cons.mp unique
    by_cases same : loop.name = name
    · have outside : name ∉ t.body.names := fun mem =>
        apart (same ▸ way.names_body_subset mem)
      rw [Forest.extend, if_pos same, extend_of_notMem outside]
      exact .inside (way.append_left more)
    · rw [Forest.extend, if_neg same]
      exact .inside (ih uniqueBody differs)
  | @beside loop inner body rest outer t way ih =>
    obtain ⟨-, apart, -, uniqueRest, -⟩ := nodup_names_cons.mp unique
    by_cases same : loop.name = name
    · have outside : name ∉ t.body.names := fun mem =>
        apart (same ▸ way.names_body_subset mem)
      rw [Forest.extend, if_pos same, extend_of_notMem outside]
      exact .beside way
    · rw [Forest.extend, if_neg same]
      exact .beside (ih uniqueRest differs)

theorem tops_extend (f : Forest) : (Forest.extend name own more f).tops = f.tops := by
  induction f with
  | nil => rfl
  | cons loop inner body rest _ ih =>
    by_cases same : loop.name = name
    · rw [Forest.extend, if_pos same, tops, tops]
    · rw [Forest.extend, if_neg same, tops, tops, ih]

end Extend

section Fuse

variable {f : Forest} {outer : List Loop} {kept removed : Tree}

theorem Way.notMem_body {s t : Tree} (way : Way f outer s) (unique : f.names.Nodup)
    (way' : Way f outer t) : t.loop.name ∉ s.body.names := by
  intro mem
  rw [← map_name_subtrees, List.mem_map] at mem
  obtain ⟨r, inside, same⟩ := mem
  obtain ⟨between, below⟩ := exists_way inside
  obtain ⟨paths, -⟩ := (way.trans below).eq_of_name_eq unique way' same
  simp at paths

theorem Way.notMem_path {t : Tree} (way : Way f outer t) (unique : f.names.Nodup) {loop : Loop}
    (differ : loop.name ≠ t.loop.name) : t.loop.name ∉ (outer ++ [loop]).map Loop.name := by
  have above := way.nodup unique
  rw [List.map_append, List.nodup_append] at above
  rw [List.map_append, List.mem_append, not_or]
  exact ⟨fun mem => above.2.2 _ mem _ (by simp) rfl, by simpa using Ne.symm differ⟩

theorem Way.nodup_names_erase (unique : f.names.Nodup) (way : Way f outer removed) :
    (f.erase removed.loop.name).names.Nodup := by
  have found := (find?_eq_some_iff unique).mpr ⟨way.mem_subtrees, rfl⟩
  have perm := names_erase_perm unique found
  exact (List.nodup_append.mp (List.nodup_cons.mp (perm.nodup_iff.mp unique)).2).2.1

theorem Way.fuse_self (unique : f.names.Nodup) (first : Way f outer kept)
    (second : Way f outer removed) (differ : kept.loop.name ≠ removed.loop.name) :
    Way (Forest.extend kept.loop.name removed.computations removed.body
      (f.erase removed.loop.name)) outer
      ⟨kept.loop, kept.computations ++ removed.computations, kept.body ++ removed.body⟩ := by
  have stays := first.erase unique (second.notMem_path unique differ)
  rw [erase_of_notMem (first.notMem_body unique second)] at stays
  exact stays.extend_self (second.nodup_names_erase unique) rfl

theorem Way.fuse_other (unique : f.names.Nodup) (first : Way f outer kept)
    (second : Way f outer removed) (differ : kept.loop.name ≠ removed.loop.name)
    {around : List Loop} {t : Tree} (way : Way f around t) (notKept : t.loop.name ≠ kept.loop.name)
    (notRemoved : t.loop.name ≠ removed.loop.name) :
    Way (Forest.extend kept.loop.name removed.computations removed.body
      (f.erase removed.loop.name)) (around.map (redirect removed.loop.name kept.loop))
      ⟨t.loop, t.computations, Forest.extend kept.loop.name removed.computations removed.body
        (t.body.erase removed.loop.name)⟩ := by
  by_cases inside : removed.loop.name ∈ around.map Loop.name
  · obtain ⟨after, rfl, below⟩ := way.past unique second inside
    have within := below.names_body_subset
    have own := (List.nodup_cons.mp (second.names_sublist.nodup unique)).1
    rw [erase_of_notMem fun mem => own (within mem),
      extend_of_notMem fun mem => second.notMem_body unique first (within mem),
      map_redirect_of_nodup (((List.sublist_append_left _ _).map _).nodup (way.nodup unique))]
    exact (first.fuse_self unique second differ).trans (below.append_right kept.body)
  · have apart : removed.loop.name ∉ (around ++ [t.loop]).map Loop.name := by
      rw [List.map_append, List.mem_append, not_or]
      exact ⟨inside, by simpa using Ne.symm notRemoved⟩
    rw [map_redirect_of_notMem inside]
    exact (way.erase unique apart).extend_other (second.nodup_names_erase unique) notKept

/-- A fusion takes every way from the second loop to the first. -/
theorem Way.fuse (unique : f.names.Nodup) (first : Way f outer kept) (second : Way f outer removed)
    (differ : kept.loop.name ≠ removed.loop.name) {around : List Loop} {t : Tree}
    (way : Way f around t) :
    ∃ around' t', Way (Forest.extend kept.loop.name removed.computations removed.body
        (f.erase removed.loop.name)) around' t' ∧
      around' ++ [t'.loop] = (around ++ [t.loop]).map (redirect removed.loop.name kept.loop) ∧
      t.computations ⊆ t'.computations := by
  have merged := first.fuse_self unique second differ
  by_cases isRemoved : t.loop.name = removed.loop.name
  · obtain ⟨rfl, rfl⟩ := way.eq_of_name_eq unique second isRemoved
    refine ⟨_, _, merged, ?_, List.subset_append_right _ _⟩
    rw [map_redirect_of_nodup (way.nodup unique)]
  · by_cases isKept : t.loop.name = kept.loop.name
    · obtain ⟨rfl, rfl⟩ := way.eq_of_name_eq unique first isKept
      refine ⟨_, _, merged, ?_, List.subset_append_left _ _⟩
      rw [map_redirect_of_notMem (second.notMem_path unique differ)]
    · refine ⟨_, _, first.fuse_other unique second differ way isKept isRemoved, ?_,
        List.Subset.refl _⟩
      rw [List.map_append, List.map_singleton, redirect, if_neg isRemoved]

end Fuse

theorem chain?_fuse {f : Forest} (unique : f.names.Nodup) (once : f.computations.Nodup)
    {outer : List Loop} {kept removed : Tree} (first : Way f outer kept)
    (second : Way f outer removed) (differ : kept.loop.name ≠ removed.loop.name)
    {g : Forest} (fused : g = Forest.extend kept.loop.name removed.computations removed.body
      (f.erase removed.loop.name)) (perm : g.computations.Perm f.computations) (c : String) :
    g.chain? c = (f.chain? c).map (List.map (redirect removed.loop.name kept.loop)) := by
  cases found : f.chain? c with
  | none =>
    rw [chain?_eq_none_iff] at found
    rw [Option.map_none, chain?_eq_none_iff, perm.mem_iff]
    exact found
  | some path =>
    obtain ⟨around, t, way, own, rfl⟩ := (chain?_eq_some_iff once).mp found
    obtain ⟨around', t', way', same, subset⟩ := Way.fuse unique first second differ way
    rw [Option.map_some, chain?_eq_some_iff (perm.nodup_iff.mpr once)]
    exact ⟨around', t', fused ▸ way', subset own, same.symm⟩

end Forest
end LoopNest
