import LoopNest.Proofs.Action.Candidates
import LoopNest.Proofs.Action.Checked
import LoopNest.Proofs.Action.Levels
import LoopNest.Proofs.Action.Positional
import LoopNest.Proofs.Action.Rebind

/-! Candidates are usable. With any factors behind them they are taken as parameters, the action
binds to the nest, and the changed nest has as many loops more or fewer as the form says. -/
namespace LoopNest

open Forest

namespace Nest

variable {n m : Nest}

theorem size_renumber (n : Nest) : n.renumber.loops.size = n.loops.size := by
  rw [← length_names, names_renumber, length_names]

theorem size_mapLoops (change : Loop → Loop) (f : Forest) : (f.mapLoops change).size = f.size := by
  rw [← length_loops, loops_mapLoops, List.length_map, length_loops]

theorem Placed.within_of_onlyChild (h : n.Placed) {a b : LoopId} (holds : n.Holds a)
    (only : n.OnlyChild a b) : n.Within a b := by
  obtain ⟨outer, t, way, name, -⟩ := holds
  have mem : b ∈ n.inside a := by rw [only]; exact List.mem_singleton_self b
  obtain ⟨s, within, rfl⟩ := (h.mem_inside_iff way name).mp mem
  exact ⟨outer, t, s, way, way.trans within, name, rfl⟩

theorem Placed.chain_within (h : n.Placed) {ids : List LoopId} (holds : ∀ id ∈ ids, n.Holds id)
    (chain : ids.IsChain n.OnlyChild) : ids.IsChain n.Within := by
  induction chain with
  | nil => exact .nil
  | singleton a => exact .singleton a
  | @cons_cons a b ids only _ ih =>
    exact .cons_cons (h.within_of_onlyChild (holds a List.mem_cons_self) only)
      (ih fun id mem => holds id (List.mem_cons_of_mem _ mem))

theorem Placed.size_tile (h : n.Placed) {band : List (LoopId × Factor)} (nonempty : band ≠ [])
    (holds : ∀ part ∈ band, n.Holds part.1) (chain : (band.map Prod.fst).IsChain n.Within)
    (tiled : n.tile band = .ok m) : m.loops.size = n.loops.size + band.length := by
  have holdsIds : ∀ id ∈ band.map Prod.fst, n.Holds id := List.forall_mem_map.mpr holds
  have sorted := Change.map_sortBy_eq (.refl _) (h.pairwise_level holdsIds chain)
  obtain ⟨first, rest, ordered, mem⟩ := exists_sortBy_eq_cons nonempty fun part => part.1.level
  have linked := h.isBand_of_chain holdsIds chain
  rw [← sorted, ordered] at linked
  obtain ⟨tiles, encloses, length, -⟩ := h.tile_band holds ordered linked
  rw [tiled] at encloses
  cases encloses
  have perm : (n.loops.enclose first.1.name tiles).names.Perm
      (tiles.map Loop.name ++ n.loops.names) :=
    names_enclose_perm h.names (holds first mem).mem_names
  rw [← length_names, perm.length_eq, List.length_append, List.length_map, length_names, length,
    Nat.add_comm]

theorem Placed.size_fuse (h : n.Placed) {a b : LoopId} (holdsA : n.Holds a) (holdsB : n.Holds b)
    (fits : (Change.fusion a b).Compatible n) (fused : n.fuse a b = .ok m) :
    m.loops.size + 1 = n.loops.size := by
  obtain ⟨outer, kept, removed, f, -⟩ := h.exists_fused holdsA holdsB fits fused
  rw [← length_names, ← length_names, (f.names_perm h).length_eq, List.length_cons]

/-- Neighbours in the row of roots, or in a row directly inside a loop, are different siblings. -/
theorem Placed.beside_of_infix_roots (h : n.Placed) {a b : LoopId} (part : [a, b] <:+: n.roots) :
    n.Holds a ∧ n.Holds b ∧ a.name ≠ b.name ∧ a.level = b.level ∧ n.Beside a b := by
  have root {id : LoopId} (mem : id ∈ [a, b]) :
      ∃ t, Way n.loops [] t ∧ id = ⟨t.loop.name, 0⟩ := by
    obtain ⟨loop, top, rfl⟩ := List.mem_map.mp (part.subset mem)
    obtain ⟨t, way, rfl⟩ := exists_way_of_mem_tops top
    exact ⟨t, way, rfl⟩
  obtain ⟨s, first, rfl⟩ := root List.mem_cons_self
  obtain ⟨t, second, rfl⟩ := root (List.mem_cons_of_mem _ List.mem_cons_self)
  have differ : s.loop.name ≠ t.loop.name := by
    simpa using part.sublist.nodup h.roots_nodup
  exact ⟨⟨[], s, first, rfl, rfl⟩, ⟨[], t, second, rfl, rfl⟩, differ, rfl, [], s, t, first, second,
    rfl, rfl⟩

theorem Placed.beside_of_infix_inside (h : n.Placed) {a b around : LoopId}
    (holds : n.Holds around) (part : [a, b] <:+: n.inside around) :
    n.Holds a ∧ n.Holds b ∧ a.name ≠ b.name ∧ a.level = b.level ∧ n.Beside a b := by
  obtain ⟨outer, r, way, name, deep⟩ := id holds
  have inner {id : LoopId} (mem : id ∈ [a, b]) :
      ∃ t, Way r.body [] t ∧ id = ⟨t.loop.name, outer.length + 1⟩ :=
    (h.mem_inside_iff way name).mp (part.subset mem)
  obtain ⟨s, first, rfl⟩ := inner List.mem_cons_self
  obtain ⟨t, second, rfl⟩ := inner (List.mem_cons_of_mem _ List.mem_cons_self)
  have differ : s.loop.name ≠ t.loop.name := by
    simpa using part.sublist.nodup (h.nodup_inside holds)
  exact ⟨⟨_, s, way.trans first, rfl, by simp⟩, ⟨_, t, way.trans second, rfl, by simp⟩, differ,
    rfl, _, s, t, way.trans first, way.trans second, rfl, rfl⟩

end Nest

namespace Form.Candidate

variable {n m : Nest} {root : LoopId} {form : Form} {ids : List LoopId}

theorem length_eq (cand : form.Candidate n root ids) : ids.length = form.loopCount := by
  cases form with
  | tiling2D | tiling3D => exact cand.1
  | interchange =>
    obtain ⟨a, d, rfl, -⟩ := cand
    rfl
  | parallelization | reversal =>
    obtain ⟨a, rfl, -⟩ := cand
    rfl
  | unrolling =>
    obtain ⟨a, -, rfl, -⟩ := cand
    rfl
  | fusion =>
    obtain ⟨a, b, rfl, -⟩ := cand
    rfl

theorem exists_change (cand : form.Candidate n root ids) {factors : List Factor}
    (count : ids.length + factors.length = form.arity) :
    ∃ c : Change, c.form = form ∧ c.loops = ids ∧ c.factors = factors := by
  have loops := cand.length_eq
  have whole := form.loopCount_add_numberCount
  exact Form.exists_change loops (by omega)

theorem beside (h : n.Placed) {a b : LoopId} (cand : fusion.Candidate n root [a, b]) :
    n.Holds a ∧ n.Holds b ∧ a.name ≠ b.name ∧ a.level = b.level ∧ n.Beside a b := by
  obtain ⟨a', b', same, ⟨-, part⟩ | ⟨around, under, part⟩⟩ := cand
  · cases same
    exact h.beside_of_infix_roots part
  · cases same
    exact h.beside_of_infix_inside under.1 part

theorem holds (h : n.Placed) (cand : form.Candidate n root ids) : ∀ id ∈ ids, n.Holds id := by
  cases form with
  | tiling2D | tiling3D => exact fun id mem => (cand.2.2 id mem).1
  | interchange =>
    obtain ⟨a, d, rfl, under, nested⟩ := cand
    simpa using ⟨under.1, nested.1⟩
  | parallelization | reversal =>
    obtain ⟨a, rfl, under⟩ := cand
    simpa using under.1
  | unrolling =>
    obtain ⟨a, -, rfl, under, -⟩ := cand
    simpa using under.1
  | fusion =>
    obtain ⟨a, b, rfl, -⟩ := id cand
    obtain ⟨holdsA, holdsB, -⟩ := cand.beside h
    simpa using ⟨holdsA, holdsB⟩

theorem compatible (h : n.Placed) {c : Change} (cand : c.form.Candidate n root c.loops) :
    c.Compatible n := by
  cases c with
  | interchange a b =>
    obtain ⟨a', d, same, under, nested⟩ := cand
    cases same
    have below := h.level_of_around under.1 nested.1 nested.2.1
    exact ⟨Nat.ne_of_lt below, .inl nested.2.1⟩
  | fusion a b => exact (beside h cand).2.2
  | _ => trivial

theorem size_apply (h : n.Placed) {c : Change} (cand : c.form.Candidate n root c.loops)
    (applied : c.apply n = .ok m) :
    m.loops.size + (if c.form = .fusion then 1 else 0) = n.loops.size + c.form.addedLoops := by
  have holds := cand.holds h
  have inPlace (edits : ∃ edit, c.apply n = .ok { n with loops := n.loops.mapLoops edit } ∧
      (n.loops.mapLoops edit).names.Nodup) : m.loops.size = n.loops.size := by
    obtain ⟨edit, edited, -⟩ := edits
    rw [applied] at edited
    cases edited
    exact Nest.size_mapLoops edit n.loops
  have tiling {band : List (LoopId × Factor)} (nonempty : band ≠ [])
      (parts : band.map Prod.fst = c.loops) (chain : c.loops.IsChain n.OnlyChild)
      (tiled : n.tile band = .ok m) : m.loops.size = n.loops.size + band.length := by
    rw [← parts] at holds chain
    exact h.size_tile nonempty (List.forall_mem_map.mp holds) (h.chain_within holds chain) tiled
  cases c with
  | tiling2D a b s t => exact @tiling [(a, s), (b, t)] (by simp) rfl cand.2.1 applied
  | tiling3D a b d s t u =>
    exact @tiling [(a, s), (b, t), (d, u)] (by simp) rfl cand.2.1 applied
  | interchange a b =>
    have both : n.Holds a ∧ n.Holds b := by simpa [Change.loops] using holds
    exact inPlace (h.interchange both.1 both.2)
  | parallelization a | unrolling a f | reversal a =>
    exact inPlace (h.adjust (holds a (by simp [Change.loops])) fun _ => rfl)
  | fusion a b =>
    obtain ⟨holdsA, holdsB, fits⟩ := beside h cand
    exact h.size_fuse holdsA holdsB fits applied

/-- With any factors a candidate is taken as parameters and binds to the nest. -/
theorem usable (h : n.Placed) (cand : form.Candidate n root ids) {factors : List Factor}
    (count : ids.length + factors.length = form.arity) :
    ∃ a bound m,
      Action.ofParams form (ids.map .loop ++ factors.map fun f => .int f.val) none = .ok a ∧
      a.bind n = .ok bound ∧ bound.nest? = some m ∧
      m.loops.size + (if form = .fusion then 1 else 0) = n.loops.size + form.addedLoops ∧
      StopsIf (a.change.Overflows n) (a.bindChecked n) (.ok bound) := by
  obtain ⟨c, rfl, rfl, rfl⟩ := cand.exists_change count
  have holds := cand.holds h
  have fits := compatible h cand
  have made : Action.ofParams c.form c.params none = .ok { change := c } :=
    Action.ofParams_eq_ok_iff.mpr ⟨c, ⟨rfl, rfl⟩, by simp, rfl⟩
  obtain ⟨targets, found⟩ := Change.targets_ok h holds
  obtain ⟨rendering, rendered⟩ := Change.render_ok h holds targets
  obtain ⟨left, applied, -, -⟩ := h.apply holds fits
  have given : Action.findTargets n c none = .ok targets := by
    simp only [Action.findTargets, found]
    rfl
  have binds := (Action.bind_eq_ok_iff (a := { change := c }) h).mpr
    ⟨c, targets, rendering, left, Change.refers_self holds, fits, given, rendered, applied, rfl⟩
  refine ⟨_, _, left.renumber, made, binds, rfl, ?_,
    Action.stopsIf_bindChecked_of_bind h holds binds⟩
  rw [Nest.size_renumber]
  exact size_apply h cand applied

end Form.Candidate

/-- On a reachable nest the candidates of a form are listed by the roots, and below each root stand
all loops that an action of the form may sensibly take, each choice once. With any factors behind it
each of them makes an action, which binds to the nest and changes the number of loops as the form
says. Where arithmetic is checked, so it does unless it is a tiling with a tile count that leaves 64
bits, at which the program stops. -/
theorem Reachable.candidates_exact {n : Nest} (reached : Reachable n) (form : Form) :
    ((form.candidates n).map Prod.fst).Perm n.roots ∧ n.roots.Nodup ∧
      ∀ root listed, (root, listed) ∈ form.candidates n →
        listed.Nodup ∧ (∀ ids, ids ∈ listed ↔ form.Candidate n root ids) ∧
        ∀ ids ∈ listed, ∀ factors : List Factor, ids.length + factors.length = form.arity →
          ∃ a bound m,
            Action.ofParams form (ids.map .loop ++ factors.map fun f => .int f.val) none = .ok a ∧
            a.bind n = .ok bound ∧ bound.nest? = some m ∧
            m.loops.size + (if form = .fusion then 1 else 0) = n.loops.size + form.addedLoops ∧
            StopsIf (a.change.Overflows n) (a.bindChecked n) (.ok bound) := by
  have h := reached.placed
  have keys : (form.candidates n).map Prod.fst = n.sections.map Prod.fst := by
    rw [Form.candidates, List.map_map]
    rfl
  refine ⟨keys ▸ n.keys_sections_perm, h.roots_nodup, fun root listed mem => ?_⟩
  obtain ⟨⟨root, sections⟩, below, same⟩ := List.mem_map.mp mem
  cases same
  have sec := h.sectioned below
  exact ⟨Form.nodup_candidatesIn h sec form, fun _ => Form.mem_candidatesIn_iff h sec form,
    fun _ choice _ count => ((Form.mem_candidatesIn_iff h sec form).mp choice).usable h count⟩

theorem tiling2D_candidates_blur :
    Form.tiling2D.candidates blurNest =
      [(⟨"v", 0⟩, [[⟨"v", 0⟩, ⟨"u", 1⟩]]), (⟨"y", 0⟩, [[⟨"y", 0⟩, ⟨"x", 1⟩]])] := by
  cbv

theorem candidates_exact_blur :
    ∃ a bound m,
      Action.ofParams .tiling2D [.loop ⟨"y", 0⟩, .loop ⟨"x", 1⟩, .int 8, .int 16] none = .ok a ∧
      a.bind blurNest = .ok bound ∧ bound.nest? = some m ∧ m.loops.size = 6 := by
  obtain ⟨-, -, below⟩ := Reachable.candidates_exact reachable_blur .tiling2D
  obtain ⟨-, -, usable⟩ := below ⟨"y", 0⟩ [[⟨"y", 0⟩, ⟨"x", 1⟩]]
    (by rw [tiling2D_candidates_blur]; decide)
  obtain ⟨a, bound, m, made, binds, changed, size, -⟩ :=
    usable _ List.mem_cons_self [⟨8, by decide, by decide⟩, ⟨16, by decide, by decide⟩] rfl
  exact ⟨a, bound, m, made, binds, changed, size⟩

end LoopNest
