import Mathlib.Logic.Relation
import LoopNest.Action.Candidates
import LoopNest.Proofs.Action.Check

/-! Loops directly inside a loop. What encloses them is the loop and what encloses this; and what a
loop encloses is one of them or enclosed by one of them. Where a loop is the only one inside
another, the way inwards has no choice. -/
namespace LoopNest

attribute [ext] LoopId

namespace Nest

open Forest

def Under (n : Nest) (root id : LoopId) : Prop := n.Holds id ∧ (id = root ∨ n.Around root id)

/-- One loop is the only one inside another. -/
def OnlyChild (n : Nest) (a b : LoopId) : Prop := n.inside a = [b]

variable {n : Nest} {a b d x root : LoopId}

theorem Placed.around_iff (h : n.Placed) {outer : List Loop} {t : Tree}
    (way : Way n.loops outer t) (name : t.loop.name = b.name) :
    n.Around a b ↔ a.name ∈ outer.map Loop.name := by
  constructor
  · rintro ⟨outer', t', way', name', mem⟩
    obtain ⟨rfl, -⟩ := way'.eq_of_name_eq h.names way (name'.trans name.symm)
    exact mem
  · exact fun mem => ⟨outer, t, way, name, mem⟩

theorem Placed.eq_of_name_eq (h : n.Placed) (holdsA : n.Holds a) (holdsB : n.Holds b)
    (same : a.name = b.name) : a = b := by
  obtain ⟨outer, t, way, name, deep⟩ := holdsA
  obtain ⟨outer', t', way', name', deep'⟩ := holdsB
  obtain ⟨rfl, -⟩ := way.eq_of_name_eq h.names way' (name.trans (same.trans name'.symm))
  exact LoopId.ext same (deep.symm.trans deep')

theorem Placed.exists_between (h : n.Placed) {outer : List Loop} {t : Tree}
    (way : Way n.loops outer t) (name : t.loop.name = a.name) (holds : n.Holds b)
    (around : n.Around a b) :
    ∃ between s, Way t.body between s ∧ s.loop.name = b.name ∧
      outer.length + (between.length + 1) = b.level := by
  obtain ⟨path, s, leads, name', deep⟩ := holds
  rw [h.around_iff leads name', ← name] at around
  obtain ⟨between, rfl, below⟩ := leads.past h.names way around
  exact ⟨between, s, below, name', by rw [← deep, List.length_append, List.length_cons]⟩

theorem Placed.level_of_around (h : n.Placed) (holdsA : n.Holds a) (holdsB : n.Holds b)
    (around : n.Around a b) : a.level < b.level := by
  obtain ⟨outer, t, way, name, deep⟩ := holdsA
  obtain ⟨between, s, -, -, deep'⟩ := h.exists_between way name holdsB around
  omega

theorem Around.trans (around : n.Around a b) (h : n.Placed) (inner : n.Around b d) :
    n.Around a d := by
  obtain ⟨outer, t, way, name, mem⟩ := around
  obtain ⟨outer', t', way', name', mem'⟩ := inner
  obtain ⟨after, rfl, -⟩ := way'.past h.names way (name ▸ mem')
  exact ⟨_, t', way', name', by simp [List.mem_map.mp mem]⟩

theorem Placed.inside_eq (h : n.Placed) {outer : List Loop} {t : Tree}
    (way : Way n.loops outer t) (same : t.loop.name = a.name) :
    n.inside a = t.body.tops.map fun loop => ⟨loop.name, outer.length + 1⟩ := by
  have found := h.entry?_eq_some_iff.mpr ⟨outer, t, way, same, rfl⟩
  simp [inside, found, entryAt]

theorem Placed.mem_inside_iff (h : n.Placed) {outer : List Loop} {t : Tree}
    (way : Way n.loops outer t) (same : t.loop.name = a.name) :
    b ∈ n.inside a ↔ ∃ s, Way t.body [] s ∧ b = ⟨s.loop.name, outer.length + 1⟩ := by
  rw [h.inside_eq way same, List.mem_map]
  constructor
  · rintro ⟨loop, top, rfl⟩
    obtain ⟨s, within, rfl⟩ := exists_way_of_mem_tops top
    exact ⟨s, within, rfl⟩
  · rintro ⟨s, within, rfl⟩
    exact ⟨s.loop, within.mem_tops, rfl⟩

theorem Placed.of_mem_inside (h : n.Placed) (holds : n.Holds a) (mem : b ∈ n.inside a) :
    n.Holds b ∧ b.level = a.level + 1 ∧
      ∀ x, n.Around x b ↔ x.name = a.name ∨ n.Around x a := by
  obtain ⟨outer, t, way, name, deep⟩ := holds
  obtain ⟨s, within, rfl⟩ := (h.mem_inside_iff way name).mp mem
  have leads := way.trans within
  refine ⟨⟨_, s, leads, rfl, by simp⟩, by rw [← deep], fun x => ?_⟩
  rw [h.around_iff leads rfl, h.around_iff way name]
  simp [name, or_comm]

theorem inside_of_loop? {e : Entry} (found : n.loop? a = some e) :
    n.inside a = e.children.map fun child => ⟨child, e.level + 1⟩ := by
  simp only [inside, (Option.filter_eq_some_iff.mp found).1]

theorem Placed.isWorkingLeaf_iff (h : n.Placed) (holds : n.Holds a) :
    n.isWorkingLeaf a = true ↔
      ∃ e, n.loop? a = some e ∧ e.children = [] ∧ e.computations ≠ [] := by
  obtain ⟨outer, t, way, name, deep⟩ := holds
  have entry := h.entry?_eq_some_iff.mpr ⟨outer, t, way, name, rfl⟩
  have found := h.loop?_eq_some_iff.mpr ⟨outer, t, way, name, deep, rfl⟩
  simp [isWorkingLeaf, entry, found]

theorem Placed.nodup_inside (h : n.Placed) (holds : n.Holds a) : (n.inside a).Nodup := by
  obtain ⟨outer, t, way, name, -⟩ := holds
  have tops : (t.body.tops.map Loop.name).Nodup :=
    (((tops_sublist t.body).map Loop.name).trans (List.sublist_cons_self _ _)).nodup
      (way.names_sublist.nodup h.names)
  have names : ((n.inside a).map LoopId.name).Nodup := by
    rwa [h.inside_eq way name, List.map_map]
  exact names.of_map

theorem Placed.nodup_flatMap_inside (h : n.Placed) {ids : List LoopId}
    (holds : ∀ id ∈ ids, n.Holds id) (nodup : ids.Nodup) : (ids.flatMap n.inside).Nodup := by
  refine List.nodup_flatMap.mpr ⟨fun id mem => h.nodup_inside (holds id mem), ?_⟩
  refine List.Pairwise.imp_of_mem (fun {a b} memA memB differ x inA inB => differ ?_) nodup
  obtain ⟨-, levelA, aboveA⟩ := h.of_mem_inside (holds a memA) inA
  obtain ⟨-, levelB, aboveB⟩ := h.of_mem_inside (holds b memB) inB
  have around : b.name = a.name ∨ n.Around b a := (aboveA b).mp ((aboveB b).mpr (.inl rfl))
  rcases around with same | outer
  · exact h.eq_of_name_eq (holds a memA) (holds b memB) same.symm
  · exact absurd (h.level_of_around (holds b memB) (holds a memA) outer) (by omega)

theorem Placed.exists_mem_inside (h : n.Placed) (holdsA : n.Holds a) (holdsX : n.Holds x)
    (around : n.Around a x) : ∃ b ∈ n.inside a, x = b ∨ n.Around b x := by
  obtain ⟨outer, t, way, name, -⟩ := holdsA
  obtain ⟨between, s, below, name', deep⟩ := h.exists_between way name holdsX around
  cases between with
  | nil =>
    refine ⟨x, (h.mem_inside_iff way name).mpr ⟨s, below, ?_⟩, .inl rfl⟩
    exact LoopId.ext name'.symm deep.symm
  | cons next between =>
    obtain ⟨r', top, rfl, -⟩ := @Way.split t.body [] between next s below
    refine ⟨_, (h.mem_inside_iff way name).mpr ⟨r', top, rfl⟩, .inr ⟨_, s, way.trans below, name', ?_⟩⟩
    simp

/-- Over only children a loop is reached from one that encloses it if all loops between have a
single loop inside them. -/
theorem Placed.transGen_onlyChild_iff (h : n.Placed) (holds : n.Holds a) :
    Relation.TransGen n.OnlyChild a d ↔
      n.Holds d ∧ n.Around a d ∧
        ∀ x, n.Holds x → (x = a ∨ n.Around a x) → n.Around x d → (n.inside x).length = 1 := by
  constructor
  · intro below
    induction below using Relation.TransGen.head_induction_on with
    | @single a only =>
      obtain ⟨holdsD, -, above⟩ := h.of_mem_inside holds (b := d) (by rw [only]; simp)
      refine ⟨holdsD, (above a).mpr (.inl rfl), fun x holdsX from_a to_d => ?_⟩
      rcases from_a with rfl | inner
      · rw [only, List.length_singleton]
      · have deeper := h.level_of_around holds holdsX inner
        rcases (above x).mp to_d with same | outer
        · exact absurd (congrArg LoopId.level (h.eq_of_name_eq holdsX holds same)) (by omega)
        · exact absurd (h.level_of_around holdsX holds outer) (by omega)
    | @head a b only _ ih =>
      obtain ⟨holdsB, -, above⟩ := h.of_mem_inside holds (b := b) (by rw [only]; simp)
      obtain ⟨holdsD, below, single⟩ := ih holdsB
      have around_b : n.Around a b := (above a).mpr (.inl rfl)
      refine ⟨holdsD, ?_, fun x holdsX from_a to_d => ?_⟩
      · exact around_b.trans h below
      · rcases from_a with rfl | inner
        · rw [only, List.length_singleton]
        · obtain ⟨b', mem, from_b⟩ := h.exists_mem_inside holds holdsX inner
          rw [only, List.mem_singleton] at mem
          exact single x holdsX (mem ▸ from_b) to_d
  · rintro ⟨holdsD, around, single⟩
    induction distance : d.level - a.level using Nat.strong_induction_on generalizing a with
    | h distance ih =>
      obtain ⟨b, only⟩ := List.length_eq_one_iff.mp (single a holds (.inl rfl) around)
      have child : b ∈ n.inside a := by rw [only]; exact List.mem_singleton_self b
      obtain ⟨holdsB, level, above⟩ := h.of_mem_inside holds child
      have deeper := h.level_of_around holds holdsD around
      obtain ⟨b', mem, rfl | below⟩ := h.exists_mem_inside holds holdsD around
      · rw [only, List.mem_singleton] at mem
        exact .single (mem ▸ only)
      · rw [only, List.mem_singleton] at mem
        subst mem
        refine .head only (ih _ (by omega) holdsB below (fun x holdsX from_b to_d => ?_) rfl)
        refine single x holdsX (.inr ?_) to_d
        rcases from_b with rfl | inner
        · exact (above a).mpr (.inl rfl)
        · exact ((above a).mpr (.inl rfl)).trans h inner

end Nest
end LoopNest
