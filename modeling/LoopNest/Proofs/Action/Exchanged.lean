import LoopNest.Proofs.Action.Success
import LoopNest.Proofs.Nest.Inside
import LoopNest.Proofs.Nest.Walk

/-! What an interchange does to the nest. The names of two loops change places, and with each name
goes the loop; what stands around a place, inside it and at it stays. An interchange does so where
the way from the outer loop to the inner one has no computation and no side branch. -/
namespace LoopNest

open Forest

def Forest.ClearAlong (f : Forest) (between : List Loop) : Prop :=
  ∀ before r after, between = before ++ r.loop :: after → Way f before r →
    r.computations = [] ∧ r.body.tops.length = 1

theorem Forest.clearAlong_cons_iff {loop : Loop} {own : List String} {body : Forest}
    {between : List Loop} :
    (cons loop own body nil).ClearAlong (loop :: between) ↔
      (own = [] ∧ body.tops.length = 1) ∧ body.ClearAlong between := by
  constructor
  · intro clear
    refine ⟨clear [] ⟨loop, own, body⟩ between rfl .here, fun before r after split way => ?_⟩
    exact clear (loop :: before) r after (congrArg _ split) (.inside way)
  · rintro ⟨here, clear⟩ before r after split way
    rcases way_cons_iff.mp way with ⟨rfl, rfl⟩ | ⟨inner, rfl, within⟩ | beside
    · exact here
    · exact clear inner r after (List.cons.inj split).2 within
    · cases beside

theorem Forest.leadsTo_iff {f : Forest} {between : List Loop} {s : Tree} (way : Way f between s)
    (unique : f.names.Nodup) (own : List String) :
    f.leadsTo s.loop.name own = true ↔
      (own = [] ∧ f.tops.length = 1) ∧ f.ClearAlong between := by
  induction way generalizing own with
  | @here loop inner body rest =>
    have along : (cons loop inner body rest).ClearAlong [] := by simp [ClearAlong]
    cases rest with
    | nil => simp [leadsTo, tops, along]
    | cons => simp [leadsTo, tops]
  | @beside loop inner body rest outer s way ih =>
    cases rest with
    | nil => cases way
    | cons => simp [leadsTo, tops]
  | @inside loop inner body rest outer s way ih =>
    cases rest with
    | cons => simp [leadsTo, tops]
    | nil =>
      obtain ⟨absent, -, uniqueBody, -⟩ := nodup_names_cons.mp unique
      have below : loop.name ≠ s.loop.name := fun same => absent (same ▸ way.mem_names)
      rw [clearAlong_cons_iff, ← ih uniqueBody inner]
      simp [leadsTo, tops, below]

namespace Nest

/-- Every loop from the outer one down to the one around the inner one has no computation and a
single loop inside it. -/
def Clear (n : Nest) (outer inner : LoopId) : Prop :=
  ∀ x e, n.loop? x = some e → (x = outer ∨ n.Around outer x) → n.Around x inner →
    e.computations = [] ∧ e.children.length = 1

/-- One nest is another one in which the names of two loops have changed places. -/
structure Exchanged (n m : Nest) (a b : String) : Prop where
  names : m.loops.names.Perm n.loops.names
  computations : m.computations.Perm n.computations
  /-- Each name keeps its loop and has the place of the name that it is exchanged for: its level,
  and around it, inside it and at it what was there. -/
  place : ∀ name e, n.entry? name = some e →
    ∃ p, n.entry? (Equiv.swap a b name) = some p ∧ m.entry? name = some {
      loop := e.loop
      level := p.level
      parent := p.parent.map (Equiv.swap a b)
      children := p.children.map (Equiv.swap a b)
      computations := p.computations }
  chain : ∀ c ids, n.chain c = .ok ids →
    m.chain c = .ok (ids.map fun id => ⟨Equiv.swap a b id.name, id.level⟩)
  roots : m.roots = n.roots.map fun id => ⟨Equiv.swap a b id.name, id.level⟩

variable {n m : Nest} {outer inner : LoopId}

theorem Placed.swappable_iff (h : n.Placed) (holdsOuter : n.Holds outer)
    (holdsInner : n.Holds inner) (around : n.Around outer inner) :
    n.swappable outer inner = true ↔ n.Clear outer inner := by
  obtain ⟨above, t, leads, named, deep, found, -⟩ := h.found holdsOuter
  obtain ⟨between, s, below, name, -⟩ := h.exists_between leads named holdsInner around
  have way := leads.trans below
  have unique : t.body.names.Nodup := (List.nodup_cons.mp (leads.names_sublist.nodup h.names)).2
  simp only [swappable, found, ← name, leadsTo_iff below unique]
  constructor
  · rintro ⟨here, along⟩ x e stands from_outer to_inner
    obtain ⟨outer', r, way', name', -, rfl⟩ := h.loop?_eq_some_iff.mp stands
    rw [entryAt, List.length_map]
    rcases from_outer with rfl | below_outer
    · obtain ⟨-, rfl⟩ := way'.eq_of_name_eq h.names leads (name'.trans named.symm)
      exact here
    · rw [h.around_iff way' name', ← named] at below_outer
      rw [h.around_iff way name, ← name'] at to_inner
      obtain ⟨before, rfl, within⟩ := way'.past h.names leads below_outer
      obtain ⟨after, split, -⟩ := way.past h.names way' to_inner
      rw [List.append_assoc, List.append_cancel_left_eq, List.cons_append] at split
      exact along before r after (List.cons.inj split).2 within
  · intro clear
    have here := clear outer _ (h.loop?_eq_some_iff.mpr ⟨above, t, leads, named, deep, rfl⟩)
      (.inl rfl) around
    rw [entryAt, List.length_map] at here
    refine ⟨here, fun before r after split within => ?_⟩
    subst split
    have stands := leads.trans within
    have along := clear ⟨r.loop.name, _⟩ _
      (h.loop?_eq_some_iff.mpr ⟨_, r, stands, rfl, rfl, rfl⟩)
      (.inr ((h.around_iff stands rfl).mpr (by simp [named])))
      ((h.around_iff way name).mpr (by simp))
    rwa [entryAt, List.length_map] at along

/-- An exchange of two loops of a forest puts loops of the forest in each other's place. -/
theorem exists_exchange {f : Forest} {s t r : Tree} (memS : s ∈ f.subtrees) (memT : t ∈ f.subtrees)
    (memR : r ∈ f.subtrees) :
    ∃ q ∈ f.subtrees, q.loop.name = Equiv.swap s.loop.name t.loop.name r.loop.name ∧
      s.loop.exchange t.loop r.loop = q.loop := by
  rw [Equiv.swap_apply_def, Loop.exchange]
  split
  · exact ⟨t, memT, rfl, rfl⟩
  · split
    · exact ⟨s, memS, rfl, rfl⟩
    · exact ⟨r, memR, rfl, rfl⟩

theorem names_exchange_perm {f : Forest} (unique : f.names.Nodup) {s t : Tree}
    (memS : s ∈ f.subtrees) (memT : t ∈ f.subtrees) :
    (f.mapLoops (s.loop.exchange t.loop)).names.Perm f.names := by
  have known : (f.mapLoops (s.loop.exchange t.loop)).names ⊆ f.names := fun name mem => by
    rw [← map_name_subtrees, subtrees_mapLoops, List.map_map, List.mem_map] at mem
    obtain ⟨r, memR, rfl⟩ := mem
    obtain ⟨q, memQ, -, moved⟩ := exists_exchange memS memT memR
    rw [Function.comp_apply, moved, ← map_name_subtrees, List.mem_map]
    exact ⟨q, memQ, rfl⟩
  refine ((nodup_names_exchange unique _ _).subperm known).perm_of_length_le ?_
  rw [length_names, length_names, ← length_loops, ← length_loops, loops_mapLoops, List.length_map]

theorem entryAt_mapLoops {edit : Loop → Loop} {rename : String → String}
    (named : ∀ loop, (edit loop).name = rename loop.name) (outer : List Loop) (t : Tree) :
    entryAt 0 none (outer.map edit) ⟨edit t.loop, t.computations, t.body.mapLoops edit⟩ =
      { entryAt 0 none outer t with
        loop := edit t.loop
        parent := (entryAt 0 none outer t).parent.map rename
        children := (entryAt 0 none outer t).children.map rename } := by
  simp [entryAt, tops_mapLoops, named, Function.comp_def]

theorem map_pathIds {edit : Loop → Loop} {rename : String → String}
    (named : ∀ loop, (edit loop).name = rename loop.name) (path : List Loop) :
    pathIds (path.map edit) = (pathIds path).map fun id => ⟨rename id.name, id.level⟩ := by
  simp [pathIds, List.zipIdx_map, named, Function.comp_def]

theorem Placed.exchanged (h : n.Placed) (placed : m.Placed) {a b : String} {s t : Tree}
    (foundA : n.loops.find? a = some s) (foundB : n.loops.find? b = some t)
    (loops : m.loops = n.loops.mapLoops (s.loop.exchange t.loop))
    (computations : m.computations.Perm n.computations) : n.Exchanged m a b := by
  obtain ⟨memA, rfl⟩ := (find?_eq_some_iff h.names).mp foundA
  obtain ⟨memB, rfl⟩ := (find?_eq_some_iff h.names).mp foundB
  have named := s.loop.name_exchange t.loop
  refine ⟨loops ▸ names_exchange_perm h.names memA memB, computations, fun name e found => ?_,
    fun c ids chain => ?_, ?_⟩
  · obtain ⟨outer, r, way, rfl, rfl⟩ := h.entry?_eq_some_iff.mp found
    obtain ⟨q, memQ, nameQ, -⟩ := exists_exchange memA memB way.mem_subtrees
    obtain ⟨r', memR, nameR, moved⟩ := exists_exchange memA memB memQ
    rw [nameQ, Equiv.swap_apply_self] at nameR
    rw [Forest.eq_of_name_eq h.names memR way.mem_subtrees nameR] at moved
    obtain ⟨outer', way'⟩ := exists_way memQ
    have stands := way'.mapLoops (s.loop.exchange t.loop)
    rw [← loops] at stands
    refine ⟨_, h.entry?_eq_some_iff.mpr ⟨outer', q, way', nameQ, rfl⟩, ?_⟩
    refine placed.entry?_eq_some_iff.mpr ⟨_, _, stands, by rw [moved], ?_⟩
    rw [entryAt_mapLoops named, moved]
    rfl
  · obtain ⟨outer, r, way, own, rfl⟩ := h.chain_eq_ok_iff.mp chain
    have stands := way.mapLoops (s.loop.exchange t.loop)
    rw [← loops] at stands
    refine placed.chain_eq_ok_iff.mpr ⟨_, _, stands, own, ?_⟩
    rw [← map_pathIds named, List.map_append, List.map_cons, List.map_nil]
  · simp [Nest.roots, loops, tops_mapLoops, named, Function.comp_def]

/-- Which of two loops of different levels is given first does not matter. -/
theorem Placed.interchange_comm (h : n.Placed) {a b : LoopId} (holdsA : n.Holds a)
    (holdsB : n.Holds b) (levels : a.level ≠ b.level) : n.interchange a b = n.interchange b a := by
  by_cases swaps : n.swappable (ordered a b).1 (ordered a b).2 = true
  · obtain ⟨s, t, foundA, foundB, exchanged⟩ := h.exchange holdsA holdsB swaps
    rw [ordered_comm levels] at swaps
    obtain ⟨t', s', foundB', foundA', exchanged'⟩ := h.exchange holdsB holdsA swaps
    cases foundA.symm.trans foundA'
    cases foundB.symm.trans foundB'
    obtain ⟨-, nameA⟩ := (find?_eq_some_iff h.names).mp foundA
    obtain ⟨-, nameB⟩ := (find?_eq_some_iff h.names).mp foundB
    have apart : s.loop.name ≠ t.loop.name := fun same =>
      levels (congrArg LoopId.level
        (h.eq_of_name_eq holdsA holdsB (nameA.symm.trans (same.trans nameB))))
    rw [exchanged, exchanged', Loop.exchange_comm apart]
  · rw [interchange_of_not_swappable swaps,
      interchange_of_not_swappable (ordered_comm levels ▸ swaps)]

theorem Sound.exchanged (h : n.Sound) (holdsOuter : n.Holds outer) (holdsInner : n.Holds inner)
    (less : outer.level < inner.level) (around : n.Around outer inner) (placed : m.Placed)
    (applied : n.interchange outer inner = .ok m) :
    (n.Clear outer inner → n.Exchanged m.renumber outer.name inner.name) ∧
      (¬n.Clear outer inner → m.renumber = n.renumber ∧ m.renumber.loops = n.loops) := by
  have first : ordered outer inner = (outer, inner) := if_pos less
  have clear := h.swappable_iff holdsOuter holdsInner around
  constructor
  · intro between
    obtain ⟨s, t, foundOuter, foundInner, exchanged⟩ :=
      h.exchange holdsOuter holdsInner (by rwa [first, clear])
    rw [applied] at exchanged
    cases exchanged
    exact h.exchanged placed.renumber.toPlaced foundOuter foundInner
      (h.mapLoops placed).loops_renumber (sortBy_perm _ _)
  · intro branches
    have same := interchange_of_not_swappable (a := outer) (b := inner)
      (by rwa [first, clear])
    rw [applied] at same
    cases same
    exact ⟨rfl, h.loops_renumber⟩

end Nest

theorem Action.bind_turned {n : Nest} (h : n.Placed) {a bound : Action} {p q : LoopId}
    (interchanges : a.change = .interchange p q) (binds : a.bind n = .ok bound) {b : Binding}
    (binding : bound.binding = some b) :
    ∃ turned c, Action.bind { a with change := .interchange q p } n = .ok turned ∧
      turned.binding = some c ∧ c.nest = b.nest := by
  obtain ⟨change, targets, rendering, m, refers, fits, found, -, applied, rfl⟩ :=
    (Action.bind_eq_ok_iff h).mp binds
  cases binding
  rw [interchanges] at refers
  cases change with
  | interchange x y =>
    obtain ⟨levels, around⟩ := fits
    obtain ⟨-, pairs, -⟩ := id refers
    simp only [Change.loops, List.forall₂_cons, List.forall₂_nil_left_iff, and_true] at pairs
    have turned : (Change.interchange q p).Refers n (.interchange y x) :=
      ⟨rfl, .cons pairs.2 (.cons pairs.1 .nil), rfl⟩
    have same := h.interchange_comm pairs.2.holds pairs.1.holds levels.symm
    obtain ⟨targets', found'⟩ := (findTargets_ok_iff h turned.holds).mpr
      ((findTargets_ok_iff h refers.holds).mp ⟨targets, found⟩)
    obtain ⟨rendering', rendered'⟩ := Change.render_ok h turned.holds targets'
    exact ⟨_, _, (Action.bind_eq_ok_iff h).mpr ⟨_, targets', rendering', m, turned,
      ⟨levels.symm, around.symm⟩, found', rendered', same.trans applied, rfl⟩, rfl, rfl⟩
  | _ => cases refers.1

/-- An interchange bound to a reachable nest. If every loop from the outer one down to the one
around the inner one has no computation and a single loop inside it, the two names change places.
Otherwise only the order is worked out anew. It does not matter which loop is given first. -/
theorem Reachable.interchange_rewrites {n : Nest} (reached : Reachable n) {a bound : Action}
    (interchanges : a.form = .interchange) (binds : a.bind n = .ok bound) {b : Binding}
    (binding : bound.binding = some b) :
    ∃ outer inner : LoopId, outer.level < inner.level ∧
      (bound.change = .interchange outer inner ∨ bound.change = .interchange inner outer) ∧
      (n.Clear outer inner → n.Exchanged b.nest outer.name inner.name) ∧
      (¬n.Clear outer inner → b.nest = n.renumber ∧ b.nest.loops = n.loops) ∧
      ∀ p q, a.change = .interchange p q →
        ∃ turned c, Action.bind { a with change := .interchange q p } n = .ok turned ∧
          turned.binding = some c ∧ c.nest = b.nest := by
  have h := reached.placed
  have turns : ∀ p q, a.change = .interchange p q →
      ∃ turned c, Action.bind { a with change := .interchange q p } n = .ok turned ∧
        turned.binding = some c ∧ c.nest = b.nest := fun p q given =>
    Action.bind_turned h given binds binding
  obtain ⟨change, targets, rendering, m, refers, fits, -, -, applied, rfl⟩ :=
    (Action.bind_eq_ok_iff h).mp binds
  cases binding
  have sameForm : a.form = change.form := refers.1
  have placed := (h.of_apply refers.holds fits applied).1
  cases change with
  | interchange x y =>
    obtain ⟨levels, around⟩ := fits
    have holdsX : n.Holds x := refers.holds x (by simp [Change.loops])
    have holdsY : n.Holds y := refers.holds y (by simp [Change.loops])
    rcases Nat.lt_or_gt_of_ne levels with less | less
    · have outward : n.Around x y := around.resolve_right fun inward =>
        absurd (h.level_of_around holdsY holdsX inward) (Nat.lt_asymm less)
      obtain ⟨clear, branches⟩ :=
        reached.sound.exchanged holdsX holdsY less outward placed applied
      exact ⟨x, y, less, .inl rfl, clear, branches, turns⟩
    · have inward : n.Around y x := around.resolve_left fun outward =>
        absurd (h.level_of_around holdsX holdsY outward) (Nat.lt_asymm less)
      have turned := (h.interchange_comm holdsY holdsX levels.symm).trans applied
      obtain ⟨clear, branches⟩ :=
        reached.sound.exchanged holdsY holdsX less inward placed turned
      exact ⟨y, x, less, .inr rfl, clear, branches, turns⟩
  | _ =>
    rw [sameForm] at interchanges
    cases interchanges

def exchangeRows : Action where
  change := .interchange ⟨"x", 1⟩ ⟨"y", 0⟩

def exchangedRows : Binding where
  nest := {
    loops :=
      .cons { name := "x", lower := .concrete 0, upper := .concrete 64 } []
        (.cons { name := "y", lower := .concrete 0, upper := .concrete 64 } ["rows"] .nil .nil) <|
      .cons { name := "v", lower := .concrete 0, upper := .concrete 64 } []
        (.cons { name := "u", lower := .concrete 0, upper := .concrete 64 } ["columns"] .nil .nil)
        .nil
    computations := blurNest.computations }
  targets := ["rows"]
  rendering := {
    program := "rows.interchange(1, 0);\n" ++ clearStatement ++ "rows.then(columns,-1);\n"
    signature := "I(L1,L0,comps=['rows'])"
    legality := "rows.interchange(1, 0);\n" ++ clearStatement ++ "rows.then(columns,-1);\n" }

theorem bind_exchangeRows :
    exchangeRows.bind blurNest = .ok { exchangeRows with binding := some exchangedRows } := by
  cbv

theorem exchanged_rows : blurNest.Exchanged exchangedRows.nest "y" "x" := by
  have h := reachable_blur.placed
  obtain ⟨outer, inner, less, given, exchanged, -, -⟩ :=
    reachable_blur.interchange_rewrites rfl bind_exchangeRows rfl
  have clear : blurNest.Clear ⟨"y", 0⟩ ⟨"x", 1⟩ := by
    refine (h.swappable_iff ?_ ?_ (h.encloses_iff.mp ?_)).mp (by decide +kernel)
    · exact h.contains_iff.mp (by decide +kernel)
    · exact h.contains_iff.mp (by decide +kernel)
    · decide +kernel
  rcases given with same | same
  · cases same
    exact absurd less (by decide)
  · cases same
    exact exchanged clear

end LoopNest
