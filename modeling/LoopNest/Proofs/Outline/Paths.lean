import LoopNest.Proofs.Outline.Exact

/-! Paths down the links of an outline. A path is told by the places in the lists of roots and
children that it goes through, so that a name that stands twice in a list gives two paths. Where
roots and children fit, the paths to a loop are those to its parent with one more step, and just
one path leads to every loop exactly if every loop is listed once where it belongs. So the walk
over the links, which compares neighbours and counts what it has seen, tells whether the loops
form a tree. -/
namespace LoopNest

theorem count_eq_one_iff {a : String} {l : List String} :
    l.count a = 1 ↔ ∃! i : Nat, l[i]? = some a := by
  induction l with
  | nil => simp [ExistsUnique]
  | cons b l ih =>
    rw [List.count_cons]
    by_cases same : b = a
    · subst same
      simp only [beq_self_eq_true, if_true, Nat.add_eq_right, List.count_eq_zero]
      constructor
      · refine fun absent => ⟨0, rfl, fun i at_i => ?_⟩
        cases i with
        | zero => rfl
        | succ i => exact absurd (List.mem_of_getElem? (show l[i]? = some b from at_i)) absent
      · intro once mem
        obtain ⟨i, at_i⟩ := List.mem_iff_getElem?.mp mem
        cases @ExistsUnique.unique _ _ once 0 (i + 1) rfl at_i
    · simp only [beq_iff_eq, same, if_false, Nat.add_zero, ih]
      constructor
      · rintro ⟨i, at_i, unique⟩
        refine ⟨i + 1, at_i, fun j at_j => ?_⟩
        cases j with
        | zero => exact absurd (Option.some.inj at_j) same
        | succ j => rw [unique j at_j]
      · rintro ⟨i, at_i, unique⟩
        cases i with
        | zero => exact absurd (Option.some.inj at_i) same
        | succ i => exact ⟨i, at_i, fun j at_j => Nat.succ.inj (unique (j + 1) at_j)⟩

theorem existsUnique_snoc_iff {longer shorter : List Nat → Prop} {step : Nat → Prop}
    (split : ∀ path, longer path ↔ ∃ above i, path = above ++ [i] ∧ shorter above ∧ step i) :
    (∃! path, longer path) ↔ (∃! above, shorter above) ∧ ∃! i, step i := by
  constructor
  · rintro ⟨path, whole, unique⟩
    obtain ⟨above, i, rfl, isAbove, isStep⟩ := (split path).mp whole
    refine ⟨⟨above, isAbove, fun above' other => ?_⟩, ⟨i, isStep, fun i' other => ?_⟩⟩
    · exact List.append_cancel_right (unique _ ((split _).mpr ⟨above', i, rfl, other, isStep⟩))
    · have same := unique _ ((split _).mpr ⟨above, i', rfl, isAbove, other⟩)
      simpa using same
  · rintro ⟨⟨above, isAbove, first⟩, ⟨i, isStep, second⟩⟩
    refine ⟨above ++ [i], (split _).mpr ⟨above, i, rfl, isAbove, isStep⟩, fun path whole => ?_⟩
    obtain ⟨above', i', rfl, isAbove', isStep'⟩ := (split path).mp whole
    rw [first above' isAbove', second i' isStep']

namespace Outline

/-- A path leads down from the list of roots to a name, at each step to a place in a list. -/
inductive Descends (o : Outline) : List Nat → String → Prop where
  | root {i name} (listed : o.roots[i]? = some name) : Descends o [i] name
  | child {path outer e i name} (above : Descends o path outer)
    (found : o.loops.get? outer = some e) (listed : e.children[i]? = some name) :
    Descends o (path ++ [i]) name

/-- The loops of an outline form trees, and their links say which. -/
structure Treelike (o : Outline) : Prop where
  roots : ∀ name ∈ o.roots, ∃ e, o.loops.get? name = some e ∧ e.parent = none
  children : ∀ name e, o.loops.get? name = some e → ∀ child ∈ e.children,
    o.loops.contains child = true
  path : ∀ name, o.loops.contains name = true → ∃! path, o.Descends path name
  parent : ∀ name e outer, o.loops.get? name = some e →
    (e.parent = some outer ↔ ∃ around, o.loops.get? outer = some around ∧ name ∈ around.children)
  level : ∀ name e path, o.loops.get? name = some e → o.Descends path name →
    path.length = e.level + 1

variable {o : Outline}

section Links

variable (roots : ∀ root ∈ o.roots, o.rootFault? root = none) (linked : o.Linked)
  {name : String} {e : Entry} (found : o.loops.get? name = some e)

include linked found in
theorem existsUnique_descends_iff_of_outermost (outermost : e.parent = none) :
    (∃! path, o.Descends path name) ↔ o.roots.count name = 1 := by
  have split (path : List Nat) : o.Descends path name ↔
      ∃ above i, path = above ++ [i] ∧ above = [] ∧ o.roots[i]? = some name := by
    constructor
    · intro descends
      cases descends with
      | root listed => exact ⟨[], _, rfl, rfl, listed⟩
      | child above around listed =>
        refine absurd ?_ (linked.notMem_inner found outermost)
        refine List.mem_flatMap.mpr ⟨_, Table.mem_keys_iff.mpr ⟨_, around⟩, ?_⟩
        rw [inner_of_get? around]
        exact List.mem_of_getElem? listed
    · rintro ⟨_, i, rfl, rfl, listed⟩
      exact .root listed
  rw [existsUnique_snoc_iff split, count_eq_one_iff]
  exact and_iff_right existsUnique_eq

include roots linked found in
theorem existsUnique_descends_iff_of_parent {outer : String} (parent : e.parent = some outer) :
    (∃! path, o.Descends path name) ↔
      (∃! path, o.Descends path outer) ∧ (o.inner outer).count name = 1 := by
  have split (path : List Nat) : o.Descends path name ↔
      ∃ above i, path = above ++ [i] ∧ o.Descends above outer ∧
        (o.inner outer)[i]? = some name := by
    constructor
    · intro descends
      cases descends with
      | root listed => exact absurd (List.mem_of_getElem? listed) (notMem_roots roots found parent)
      | child above around listed =>
        obtain ⟨c, inside, parent', -⟩ := childFault?_eq_none_iff.mp
          (linked _ _ around _ (List.mem_of_getElem? listed))
        cases found.symm.trans inside
        cases parent.symm.trans parent'
        exact ⟨_, _, rfl, above, inner_of_get? around ▸ listed⟩
    · rintro ⟨above, i, rfl, descends, listed⟩
      obtain ⟨around, -, isLoop, -⟩ := linked.parent_of_mem (List.mem_of_getElem? listed)
      exact .child descends isLoop (inner_of_get? isLoop ▸ listed)
  rw [existsUnique_snoc_iff split, count_eq_one_iff]

end Links

section Trees

variable (roots : ∀ root ∈ o.roots, o.rootFault? root = none) (linked : o.Linked)

include roots linked in
/-- The levels count the steps of the paths. -/
theorem Descends.length_eq {path : List Nat} {name : String} (descends : o.Descends path name)
    {e : Entry} (found : o.loops.get? name = some e) : path.length = e.level + 1 := by
  induction descends generalizing e with
  | root listed =>
    obtain ⟨e', found', -, level⟩ :=
      rootFault?_eq_none_iff.mp (roots _ (List.mem_of_getElem? listed))
    cases found.symm.trans found'
    rw [level, List.length_singleton]
  | child _ around listed ih =>
    obtain ⟨c, found', -, level⟩ := childFault?_eq_none_iff.mp
      (linked _ _ around _ (List.mem_of_getElem? listed))
    cases found.symm.trans found'
    rw [List.length_append, ih around, level, List.length_singleton]

include roots linked in
/-- Just one path leads to every loop exactly if every loop is listed once where it belongs. -/
theorem existsUnique_descends_iff_listed :
    (∀ name, o.loops.contains name = true → ∃! path, o.Descends path name) ↔ o.Listed := by
  constructor
  · intro once
    have path {name : String} {e : Entry} (found : o.loops.get? name = some e) :
        ∃! path, o.Descends path name := once name (Table.contains_iff_get?.mpr ⟨e, found⟩)
    refine ⟨fun name e found outermost => ?_, fun name e outer found parent => ?_⟩
    · exact (existsUnique_descends_iff_of_outermost linked found outermost).mp (path found)
    · exact ((existsUnique_descends_iff_of_parent roots linked found parent).mp (path found)).2
  · intro listed name known
    obtain ⟨e, found⟩ := Table.contains_iff_get?.mp known
    clear known
    induction level : e.level using Nat.strong_induction_on generalizing name e with
    | h level ih =>
      subst level
      cases parent : e.parent with
      | none =>
        exact (existsUnique_descends_iff_of_outermost linked found parent).mpr
          (listed.root name e found parent)
      | some outer =>
        have once := listed.child name e outer found parent
        have inside : name ∈ o.inner outer := List.count_pos_iff.mp (by omega)
        obtain ⟨around, c, isLoop, found', -, deeper⟩ := linked.parent_of_mem inside
        cases found.symm.trans found'
        exact (existsUnique_descends_iff_of_parent roots linked found parent).mpr
          ⟨ih around.level (by omega) outer around isLoop rfl, once⟩

end Trees

theorem Treelike.rootFault? (tree : o.Treelike) : ∀ root ∈ o.roots, o.rootFault? root = none := by
  intro root mem
  obtain ⟨e, found, outermost⟩ := tree.roots root mem
  obtain ⟨i, listed⟩ := List.mem_iff_getElem?.mp mem
  have steps := tree.level root e [i] found (.root listed)
  refine rootFault?_eq_none_iff.mpr ⟨e, found, outermost, ?_⟩
  simpa using steps.symm

theorem Treelike.linked (tree : o.Treelike) : o.Linked := by
  intro name e found child mem
  obtain ⟨c, isLoop⟩ := Table.contains_iff_get?.mp (tree.children name e found child mem)
  obtain ⟨path, descends, -⟩ := tree.path name (Table.contains_iff_get?.mpr ⟨e, found⟩)
  obtain ⟨i, listed⟩ := List.mem_iff_getElem?.mp mem
  have above := tree.level name e path found descends
  have below := tree.level child c (path ++ [i]) isLoop (.child descends found listed)
  refine childFault?_eq_none_iff.mpr ⟨c, isLoop, (tree.parent child c name isLoop).mpr
    ⟨e, found, mem⟩, ?_⟩
  rw [List.length_append, List.length_singleton, above] at below
  exact (Nat.succ.inj below).symm

/-- The checks of the roots and the walk over the links find no fault exactly in trees. -/
theorem treelike_iff :
    o.Treelike ↔ (∀ root ∈ o.roots, o.rootFault? root = none) ∧
      o.walkFault? o.loops.entries o.roots.reverse = none := by
  constructor
  · intro tree
    have roots := tree.rootFault?
    have listed := (existsUnique_descends_iff_listed roots tree.linked).mp tree.path
    exact ⟨roots, (walkFault?_eq_none_iff roots).mpr ⟨tree.linked, listed⟩⟩
  · rintro ⟨roots, ok⟩
    obtain ⟨linked, listed⟩ := (walkFault?_eq_none_iff roots).mp ok
    refine ⟨?_, ?_, (existsUnique_descends_iff_listed roots linked).mpr listed, ?_, ?_⟩
    · intro name mem
      obtain ⟨e, found, outermost, -⟩ := rootFault?_eq_none_iff.mp (roots name mem)
      exact ⟨e, found, outermost⟩
    · intro name e found child mem
      obtain ⟨c, isLoop, -⟩ := childFault?_eq_none_iff.mp (linked name e found child mem)
      exact Table.contains_iff_get?.mpr ⟨c, isLoop⟩
    · intro name e outer found
      constructor
      · intro parent
        have once := listed.child name e outer found parent
        have inside : name ∈ o.inner outer := List.count_pos_iff.mp (by omega)
        obtain ⟨around, -, isLoop, -⟩ := linked.parent_of_mem inside
        exact ⟨around, isLoop, inner_of_get? isLoop ▸ inside⟩
      · rintro ⟨around, isLoop, mem⟩
        obtain ⟨c, found', parent, -⟩ :=
          childFault?_eq_none_iff.mp (linked outer around isLoop name mem)
        cases found.symm.trans found'
        exact parent
    · exact fun name e path found descends => descends.length_eq roots linked found

end Outline
end LoopNest
