import Mathlib.Data.List.Induction
import Mathlib.Logic.Relation
import LoopNest.Proofs.Outline.Regular

/-! Walks along the links of an outline: from a loop outwards over the parents, and from a loop
inwards over the children, with a stack. In any outline such a walk may run into a name that leads
nowhere or in a circle. In the outline of a placed nest each of them ends, and what it meets can be
read off the ways down the forest. -/
namespace LoopNest

open Forest

namespace Outline

/-- Over the parents, a loop leads outwards to a loop without parent. Gives all loops met,
outermost first. -/
inductive Climbs (o : Outline) : String → List String → Prop where
  | top {name e} (found : o.loops.get? name = some e) (outermost : e.parent = none) :
    Climbs o name [name]
  | up {name e parent outer} (found : o.loops.get? name = some e) (around : e.parent = some parent)
    (above : Climbs o parent outer) : Climbs o name (outer ++ [name])

/-- Over the parents, a loop leads outwards to the first loop that stands no deeper than a level. -/
inductive ClimbsTo (o : Outline) (level : Nat) : String → String → Prop where
  | here {name e} (found : o.loops.get? name = some e) (shallow : e.level ≤ level) :
    ClimbsTo o level name name
  | up {name e parent last} (found : o.loops.get? name = some e) (deep : level < e.level)
    (around : e.parent = some parent) (above : ClimbsTo o level parent last) :
    ClimbsTo o level name last

/-- A walk takes a name from a stack, gathers the computations at that loop and puts its children
on the stack, until the stack is empty. Gives all computations gathered. -/
inductive Gathers (o : Outline) : List String → List String → Prop where
  | done : Gathers o [] []
  | pop {name e waiting gathered} (found : o.loops.get? name = some e)
    (others : Gathers o (e.children.reverse ++ waiting) gathered) :
    Gathers o (name :: waiting) (e.computations ++ gathered)

def Child (o : Outline) (outer inner : String) : Prop :=
  ∃ e, o.loops.get? outer = some e ∧ inner ∈ e.children

variable {o : Outline}

/-- The walk inwards ends on any stack that unfolds, with the computations of what it unfolds
into. -/
theorem Unfolds.gathers (named : o.Named) {waiting : List String} {f : Forest}
    (unfolds : o.Unfolds waiting f) :
    ∃ gathered, o.Gathers waiting gathered ∧ gathered.Perm f.computations := by
  -- by the number of loops that are left, since each step takes one loop off
  induction size : f.size generalizing waiting f with
  | zero =>
    cases unfolds with
    | nil => exact ⟨[], .done, .refl _⟩
    | cons => simp [Forest.size] at size
  | succ left ih =>
    cases unfolds with
    | nil => cases size
    | @cons name names e body rest found inside beside =>
      obtain ⟨g, inward, perm⟩ :=
        @Unfolds.reverse o e.children.reverse _ (by rwa [List.reverse_reverse])
      have below : o.Unfolds (e.children.reverse ++ names) (g ++ rest) :=
        unfolds_append_iff.mpr ⟨g, rest, inward, beside, rfl⟩
      have count : (g ++ rest).size = left := by
        have same : g.size = body.size := by rw [← length_names, ← length_names, perm.length_eq]
        rw [← length_names, names_append, List.length_append, length_names, length_names, same]
        simpa [Forest.size] using size
      obtain ⟨gathered, walk, all⟩ := ih below count
      have same : g.computations.Perm body.computations := by
        rw [inward.computations_eq named, inside.computations_eq named]
        exact perm.flatMap_right _
      refine ⟨e.computations ++ gathered, .pop found walk, ?_⟩
      rw [computations_append] at all
      exact (all.trans (same.append_right _)).append_left _

end Outline

namespace Nest

variable {n : Nest}

theorem Placed.get?_entryAt (h : n.Placed) {outer : List Loop} {t : Tree}
    (way : Way n.loops outer t) :
    n.outline.loops.get? t.loop.name = some (entryAt 0 none outer t) :=
  h.get?_outline.mpr ⟨outer, t, way, rfl, rfl⟩

theorem Placed.climbs (h : n.Placed) {outer : List Loop} {t : Tree} (way : Way n.loops outer t) :
    n.outline.Climbs t.loop.name ((outer ++ [t.loop]).map Loop.name) := by
  induction outer using List.reverseRecOn generalizing t with
  | nil => exact .top (h.get?_entryAt way) rfl
  | append_singleton outer last ih =>
    obtain ⟨s, leads, rfl, -⟩ := way.split
    rw [List.map_append]
    exact .up (h.get?_entryAt way) (by simp [entryAt]) (ih leads)

theorem Placed.climbsTo (h : n.Placed) {level : Nat} {outer : List Loop} {t : Tree}
    (way : Way n.loops outer t) {loop : Loop} (met : (outer ++ [t.loop])[level]? = some loop) :
    n.outline.ClimbsTo level t.loop.name loop.name := by
  induction outer using List.reverseRecOn generalizing t with
  | nil =>
    obtain ⟨rfl, rfl⟩ : level = 0 ∧ t.loop = loop := by
      simpa [List.getElem?_singleton] using met
    exact .here (h.get?_entryAt way) (by simp [entryAt])
  | append_singleton outer last ih =>
    obtain ⟨s, leads, rfl, -⟩ := way.split
    by_cases deepest : (outer ++ [s.loop]).length ≤ level
    · rw [List.getElem?_append_right deepest] at met
      obtain ⟨-, rfl⟩ : level - (outer ++ [s.loop]).length = 0 ∧ t.loop = loop := by
        simpa [List.getElem?_singleton] using met
      exact .here (h.get?_entryAt way) (by simpa [entryAt] using deepest)
    · rw [List.getElem?_append_left (Nat.lt_of_not_le deepest)] at met
      exact .up (h.get?_entryAt way) (by simpa [entryAt] using deepest) (by simp [entryAt])
        (ih leads met)

theorem Placed.gathers (h : n.Placed) {outer : List Loop} {t : Tree}
    (way : Way n.loops outer t) :
    ∃ gathered, n.outline.Gathers [t.loop.name] gathered ∧ gathered.Perm t.under := by
  have unfolds : n.outline.Unfolds [t.loop.name] (.cons t.loop t.computations t.body .nil) := by
    refine unfolds_tops (f := .cons t.loop t.computations t.body .nil) fun s mem => ?_
    obtain ⟨inner, below⟩ := exists_way mem
    rcases way_cons_iff.mp below with ⟨-, rfl⟩ | ⟨after, -, within⟩ | behind
    · exact ⟨_, h.get?_entryAt way, rfl, rfl, rfl⟩
    · exact ⟨_, h.get?_entryAt (way.trans within), rfl, rfl, rfl⟩
    · cases behind
  obtain ⟨gathered, walk, all⟩ := unfolds.gathers h.named
  exact ⟨gathered, walk, by simpa [Tree.under, Forest.computations] using all⟩

theorem Placed.child_iff (h : n.Placed) {a d : String} :
    n.outline.Child a d ↔ ∃ outer s t, Way n.loops outer s ∧ s.loop.name = a ∧
      Way s.body [] t ∧ t.loop.name = d := by
  constructor
  · rintro ⟨e, found, mem⟩
    obtain ⟨outer, s, way, rfl, rfl⟩ := h.get?_outline.mp found
    obtain ⟨loop, top, rfl⟩ := List.mem_map.mp mem
    obtain ⟨t, within, rfl⟩ := exists_way_of_mem_tops top
    exact ⟨outer, s, t, way, rfl, within, rfl⟩
  · rintro ⟨outer, s, t, way, rfl, within, rfl⟩
    exact ⟨_, h.get?_entryAt way, List.mem_map_of_mem within.mem_tops⟩

theorem Placed.transGen_child_iff (h : n.Placed) {a d : String} :
    Relation.TransGen n.outline.Child a d ↔
      ∃ outer t, Way n.loops outer t ∧ t.loop.name = d ∧ a ∈ outer.map Loop.name := by
  constructor
  · intro below
    induction below with
    | single child =>
      obtain ⟨outer, s, t, way, rfl, within, same⟩ := h.child_iff.mp child
      exact ⟨_, t, way.trans within, same, by simp⟩
    | tail _ child ih =>
      obtain ⟨outer, s, leads, rfl, mem⟩ := ih
      obtain ⟨outer', s', t, way, same, within, rfl⟩ := h.child_iff.mp child
      obtain ⟨rfl, rfl⟩ := way.eq_of_name_eq h.names leads same
      exact ⟨_, t, way.trans within, rfl, by simp [List.mem_map.mp mem]⟩
  · rintro ⟨outer, t, way, rfl, mem⟩
    obtain ⟨loop, on, rfl⟩ := List.mem_map.mp mem
    obtain ⟨before, after, rfl⟩ := List.append_of_mem on
    obtain ⟨s, leads, rfl, below⟩ := way.split
    clear way mem on
    induction after generalizing before s with
    | nil => exact .single (h.child_iff.mpr ⟨before, s, t, leads, rfl, below, rfl⟩)
    | cons next after ih =>
      obtain ⟨r, first, rfl, rest⟩ := @Way.split s.body [] after next t below
      exact .head (h.child_iff.mpr ⟨before, s, r, leads, rfl, first, rfl⟩)
        (ih (before ++ [s.loop]) r (leads.trans first) rest)

end Nest
end LoopNest
