import LoopNest.Proofs.Action.Exchanged
import LoopNest.Proofs.Action.Fusion

/-! What a fusion does to the nest. The first loop takes in what stood at the second and inside it,
and the second is gone from its row. No other loop has moved, and none has lost a computation; the
first loop's are put in the order that the fused nest is given. -/
namespace LoopNest

open Forest

namespace Nest

/-- One nest is another one in which a loop has taken in a loop that stood beside it. -/
structure Merged (n m : Nest) (a b : LoopId) : Prop where
  gone : m.entry? b.name = none
  names : n.loops.names.Perm (b.name :: m.loops.names)
  computations : m.computations.Perm n.computations
  chain : ∀ c ids, n.chain c = .ok ids →
    m.chain c = .ok (ids.map fun id => if id = b then a else id)
  /-- The first loop stays where it stood. Inside it are the loops that were, and behind them those
  of the second loop. It has the computations of both, each once, in the new order. -/
  kept : ∃ e e', n.entry? a.name = some e ∧ n.entry? b.name = some e' ∧
    (e.computations ++ e'.computations).Nodup ∧ m.entry? a.name = some {
      loop := e.loop
      level := e.level
      parent := e.parent
      children := e.children ++ e'.children
      computations := m.sortByRank (e.computations ++ e'.computations) }
  /-- What stood directly inside the second loop stands directly inside the first, and the second is
  taken out of its row. Nothing else about the other loops differs. -/
  other : ∀ name e, name ≠ a.name → name ≠ b.name → n.entry? name = some e → m.entry? name = some {
    loop := e.loop
    level := e.level
    parent := e.parent.map fun parent => if parent = b.name then a.name else parent
    children := e.children.filter fun child => child ≠ b.name
    computations := e.computations }
  roots : m.roots = n.roots.filter fun id => id.name ≠ b.name

variable {n m : Nest} {outer : List Loop} {kept removed : Tree}

theorem name_redirect (name : String) (target loop : Loop) :
    (redirect name target loop).name = if loop.name = name then target.name else loop.name := by
  rw [redirect]
  split <;> rfl

theorem entryAt_fuse (around : List Loop) (t : Tree) (unique : t.body.names.Nodup) :
    entryAt 0 none (around.map (redirect removed.loop.name kept.loop))
        ⟨t.loop, t.computations, extend kept.loop.name removed.computations removed.body
          (t.body.erase removed.loop.name)⟩ = {
      loop := t.loop
      level := (entryAt 0 none around t).level
      parent := (entryAt 0 none around t).parent.map fun parent =>
        if parent = removed.loop.name then kept.loop.name else parent
      children := (entryAt 0 none around t).children.filter fun child => child ≠ removed.loop.name
      computations := t.computations } := by
  simp [entryAt, tops_extend, map_name_tops_erase unique, name_redirect, Function.comp_def]

theorem Fused.entry?_kept (f : n.Fused m outer kept removed) (h : n.Placed) (h' : m.Placed) :
    m.entry? kept.loop.name = some (entryAt 0 none outer
      ⟨kept.loop, kept.computations ++ removed.computations, kept.body ++ removed.body⟩) :=
  h'.entry?_eq_some_iff.mpr ⟨_, _, f.way_kept h, rfl, rfl⟩

theorem Fused.entry?_other (f : n.Fused m outer kept removed) (h : n.Placed) (h' : m.Placed)
    {name : String} {e : Entry} (notKept : name ≠ kept.loop.name)
    (notRemoved : name ≠ removed.loop.name) (found : n.entry? name = some e) :
    m.entry? name = some {
      loop := e.loop
      level := e.level
      parent := e.parent.map fun parent =>
        if parent = removed.loop.name then kept.loop.name else parent
      children := e.children.filter fun child => child ≠ removed.loop.name
      computations := e.computations } := by
  obtain ⟨around, t, way, rfl, rfl⟩ := h.entry?_eq_some_iff.mp found
  have stands := f.way.fuse_other h.names f.way' f.differ way notKept notRemoved
  rw [← f.loops] at stands
  have unique := (List.nodup_cons.mp (way.names_sublist.nodup h.names)).2
  refine h'.entry?_eq_some_iff.mpr ⟨_, _, stands, rfl, ?_⟩
  rw [entryAt_fuse around t unique]
  rfl

/-- Each identifier on the way to a loop is that of a loop of the nest. -/
theorem holds_of_mem_pathIds {around : List Loop} {t : Tree} (way : Way n.loops around t)
    {id : LoopId} (mem : id ∈ pathIds (around ++ [t.loop])) : n.Holds id := by
  obtain ⟨i, at_i⟩ := List.mem_iff_getElem?.mp mem
  rw [getElem?_pathIds, Option.map_eq_some_iff] at at_i
  obtain ⟨loop, met, rfl⟩ := at_i
  obtain ⟨before, s, leads, rfl, deep⟩ := way.exists_at met
  exact ⟨before, s, leads, rfl, deep⟩

/-- The chains of computations in a nest in which two loops are fused. -/
theorem Fused.chain (f : n.Fused m outer kept removed) (h : n.Placed) {a b : LoopId}
    (holdsB : n.Holds b) (nameA : kept.loop.name = a.name) (nameB : removed.loop.name = b.name)
    (levels : a.level = b.level) {c : String} {ids : List LoopId} (chain : n.chain c = .ok ids) :
    m.chain c = .ok (ids.map fun id => if id = b then a else id) := by
  obtain ⟨around, t, way, own, rfl⟩ := h.chain_eq_ok_iff.mp chain
  have found := (chain?_eq_some_iff h.computations).mpr ⟨around, t, way, own, rfl⟩
  let rename (name : String) : String := if name = removed.loop.name then kept.loop.name else name
  have named (loop : Loop) : (redirect removed.loop.name kept.loop loop).name = rename loop.name :=
    name_redirect _ _ loop
  simp only [Nest.chain, f.chain?_eq h, found, Option.map_some]
  rw [map_pathIds named]
  refine congrArg Except.ok (List.map_congr_left fun id mem => ?_)
  by_cases same : id.name = removed.loop.name
  · obtain rfl : id = b := h.eq_of_name_eq (holds_of_mem_pathIds way mem) holdsB (same.trans nameB)
    simp only [rename, same, if_true, nameA, ← levels]
  · have differs : id ≠ b := fun equal => same (equal ▸ nameB.symm)
    simp only [rename, same, differs, if_false]

theorem Fused.removed_notMem (f : n.Fused m outer kept removed) (h : n.Placed) :
    removed.loop.name ∉ m.loops.names :=
  (List.nodup_cons.mp ((f.names_perm h).nodup_iff.mp h.names)).1

theorem Fused.nodup_computations (f : n.Fused m outer kept removed) (h : n.Placed)
    (h' : m.Placed) : (kept.computations ++ removed.computations).Nodup :=
  (List.nodup_append.mp (h'.nodup_under (f.way_kept h))).1

theorem Fused.merged (f : n.Fused m outer kept removed) (h : n.Sound) (h' : m.Placed)
    (computations : m.computations = n.computations) {a b : LoopId} (holdsB : n.Holds b)
    (nameA : kept.loop.name = a.name) (nameB : removed.loop.name = b.name)
    (levels : a.level = b.level) : n.Merged m.renumber a b where
  gone := by
    refine Option.eq_none_iff_forall_ne_some.mpr fun e found => ?_
    obtain ⟨around, t, way, named, -⟩ := h'.renumber.toPlaced.entry?_eq_some_iff.mp found
    have mem : b.name ∈ m.renumber.loops.names := named ▸ way.mem_names
    rw [names_renumber, ← nameB] at mem
    exact f.removed_notMem h.toPlaced mem
  names := by
    rw [← nameB, names_renumber]
    exact f.names_perm h.toPlaced
  computations := by
    rw [← computations]
    exact sortBy_perm _ _
  chain c ids chain := by
    rw [Nest.chain, chain?_renumber]
    exact f.chain h.toPlaced holdsB nameA nameB levels chain
  kept := by
    refine ⟨_, _, h.entry?_eq_some_iff.mpr ⟨outer, kept, f.way, nameA, rfl⟩,
      h.entry?_eq_some_iff.mpr ⟨outer, removed, f.way', nameB, rfl⟩,
      f.nodup_computations h.toPlaced h', ?_⟩
    rw [← nameA, h'.entry?_renumber (f.entry?_kept h.toPlaced h')]
    simp [entryAt, tops_append]
  other name e notA notB found := by
    have moved := f.entry?_other h.toPlaced h' (nameA ▸ notA) (nameB ▸ notB) found
    obtain ⟨around, t, way, named, rfl⟩ := h.entry?_eq_some_iff.mp found
    obtain ⟨around', t', way', -, same⟩ := h'.entry?_eq_some_iff.mp moved
    -- the list of the loop is in the order that is sorted anew
    have order : m.order = n.order := congrArg (List.map Computation.name) computations
    have own : t.computations = t'.computations := congrArg Entry.computations same
    have ranked := order ▸ own ▸ h.ranked t way.mem_subtrees
    rw [h'.entry?_renumber moved, nameA, nameB]
    simp only [entryAt, own, h'.sortByRank_renumber way'.mem_subtrees ranked]
  roots := by
    have row := map_name_tops_erase h.names removed.loop.name
    have ids := congrArg (List.map fun name => (⟨name, 0⟩ : LoopId)) row
    rw [← nameB, Nest.roots, h'.loops_renumber, tops_mapComputations, f.loops, tops_extend]
    simpa [Nest.roots, List.filter_map, Function.comp_def] using ids

end Nest

/-- A fusion bound to a reachable nest merges the second loop into the first. -/
theorem Reachable.fusion_merges {n : Nest} (reached : Reachable n) {a bound : Action} {b : Binding}
    (fuses : a.form = .fusion) (binds : a.bind n = .ok bound) (binding : bound.binding = some b) :
    ∃ x y, bound.change = .fusion x y ∧ n.Merged b.nest x y := by
  have h := reached.placed
  obtain ⟨change, targets, rendering, m, refers, fits, -, -, applied, rfl⟩ :=
    (Action.bind_eq_ok_iff h).mp binds
  cases binding
  have sameForm : change.form = .fusion := refers.1.symm.trans fuses
  cases change with
  | fusion x y =>
    have holdsX : n.Holds x := refers.holds x (by simp [Change.loops])
    have holdsY : n.Holds y := refers.holds y (by simp [Change.loops])
    obtain ⟨placed, same⟩ := h.of_apply refers.holds fits applied
    obtain ⟨outer, kept, removed, fused, nameX, nameY, -⟩ :=
      h.exists_fused holdsX holdsY fits applied
    exact ⟨x, y, rfl, fused.merged reached.sound placed same holdsY nameX nameY fits.2.1⟩
  | _ => cases sameForm

theorem fuseParted_merges :
    partedNest.Merged fusedParted.nest ⟨"a", 1⟩ ⟨"b", 1⟩ := by
  obtain ⟨x, y, same, merged⟩ := reachable_parted.fusion_merges rfl bind_fuseParted rfl
  cases same
  exact merged

end LoopNest
