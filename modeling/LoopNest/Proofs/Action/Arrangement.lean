import LoopNest.Proofs.Action.Checked

/-! Tilings whose loops are given in any arrangement. They always bind, and in whatever order the
loops come with their tile sizes, the changed nest is the same. Sorting by levels keeps loops of one
level in the order in which they are given, but a band has no two loops of one level, and without a
band nothing is put around a loop. -/
namespace LoopNest

open Forest

namespace Nest

variable {n : Nest} {band band' : List (LoopId × Factor)}

theorem Placed.sortBy_level_perm (h : n.Placed) (holds : ∀ part ∈ band, n.Holds part.1)
    (perm : band'.Perm band)
    (linked : n.isBand ((sortBy (fun part => part.1.level) band).map Prod.fst) = true) :
    sortBy (fun part => part.1.level) band' = sortBy (fun part => part.1.level) band := by
  have holdsSorted : ∀ id ∈ (sortBy (fun part => part.1.level) band).map Prod.fst, n.Holds id :=
    List.forall_mem_map.mpr fun part mem => holds part (mem_sortBy.mp mem)
  have levels := List.pairwise_map.mp (h.pairwise_level holdsSorted (h.chain_of_isBand linked))
  exact sortBy_eq_of_perm (perm.trans (sortBy_perm _ band).symm) levels

theorem Placed.tile_perm (h : n.Placed) (holds : ∀ part ∈ band, n.Holds part.1)
    (perm : band'.Perm band) : n.tile band' = n.tile band := by
  have holds' : ∀ part ∈ band', n.Holds part.1 := fun part mem => holds part (perm.mem_iff.mp mem)
  by_cases linked : n.isBand ((sortBy (fun part => part.1.level) band).map Prod.fst) = true
  · simp only [Nest.tile, h.sortBy_level_perm holds perm linked]
  · have unlinked :
        ¬n.isBand ((sortBy (fun part => part.1.level) band').map Prod.fst) = true := by
      intro linked'
      have same := h.sortBy_level_perm holds' perm.symm linked'
      exact linked (same ▸ linked')
    rw [tile_of_not_band unlinked, tile_of_not_band linked]

end Nest

namespace Change

variable {n : Nest} {c d : Change}

theorem form_of_perm (isTiling : c.form = .tiling2D ∨ c.form = .tiling3D)
    (perm : (d.loops.zip d.factors).Perm (c.loops.zip c.factors)) : d.form = c.form := by
  have length := perm.length_eq
  cases c with
  | tiling2D =>
    cases d with
    | tiling2D => rfl
    | _ => simp [loops, factors] at length
  | tiling3D =>
    cases d with
    | tiling3D => rfl
    | _ => simp [loops, factors] at length
  | _ => rcases isTiling with form | form <;> cases form

theorem loops_of_perm (isTiling : c.form = .tiling2D ∨ c.form = .tiling3D)
    (perm : (d.loops.zip d.factors).Perm (c.loops.zip c.factors)) : d.loops.Perm c.loops := by
  obtain ⟨-, ids, -⟩ := apply_of_tiling isTiling ⟨.nil, []⟩
  obtain ⟨-, ids', -⟩ := apply_of_tiling (form_of_perm isTiling perm ▸ isTiling) ⟨.nil, []⟩
  have parts := perm.map Prod.fst
  rwa [ids, ids'] at parts

theorem compatible_of_tiling (isTiling : c.form = .tiling2D ∨ c.form = .tiling3D) :
    c.Compatible n := by
  cases c with
  | tiling2D | tiling3D => trivial
  | _ => rcases isTiling with form | form <;> cases form

theorem overflows_of_perm (h : n.Placed) (holds : ∀ part ∈ c.loops.zip c.factors, n.Holds part.1)
    (form : d.form = c.form) (perm : (d.loops.zip d.factors).Perm (c.loops.zip c.factors))
    (stops : c.Overflows n) : d.Overflows n := by
  obtain ⟨isTiling, chain, stopping⟩ := stops
  have holdsBand : ∀ id ∈ c.band.map Prod.fst, n.Holds id :=
    List.forall_mem_map.mpr fun part mem => holds part (mem_sortBy.mp mem)
  have same : d.band = c.band :=
    h.sortBy_level_perm holds perm (h.isBand_of_chain holdsBand chain)
  exact ⟨form ▸ isTiling, same ▸ chain, same ▸ stopping⟩

theorem targets_of_perm (h : n.Placed) (isTiling : c.form = .tiling2D ∨ c.form = .tiling3D)
    (holds : ∀ id ∈ c.loops, n.Holds id)
    (perm : (d.loops.zip d.factors).Perm (c.loops.zip c.factors))
    (chain : (c.band.map Prod.fst).IsChain n.Within) : d.targets n = c.targets n := by
  have form := form_of_perm isTiling perm
  obtain ⟨-, ids, nonempty⟩ := apply_of_tiling isTiling n
  have sorted : (c.band.map Prod.fst).Perm c.loops := by
    have parts := (sortBy_perm (fun part => part.1.level) (c.loops.zip c.factors)).map Prod.fst
    rwa [ids] at parts
  have given : c.loops.Perm d.loops := (loops_of_perm isTiling perm).symm
  have levels := h.pairwise_level (fun id mem => holds id (sorted.mem_iff.mp mem)) chain
  have apart : c.form ≠ .fusion := by rcases isTiling with same | same <;> simp [same]
  cases band : c.band.map Prod.fst with
  | nil =>
    rw [band, List.nil_perm] at sorted
    simp [sorted] at nonempty
  | cons first rest =>
    rw [band] at sorted levels
    rw [targets_of_outermost apart (outermost?_of_band sorted levels),
      targets_of_outermost (form ▸ apart) (outermost?_of_band (sorted.trans given) levels)]

end Change

/-- A tiling of loops of the nest binds if no computations are given. -/
theorem Action.exists_bind_tiling {n : Nest} (h : n.Placed) {a : Action}
    (isTiling : a.form = .tiling2D ∨ a.form = .tiling3D)
    (holds : ∀ id ∈ a.change.loops, n.Holds id) (unlimited : a.explicit = none) :
    ∃ m targets rendering, n.tile (a.change.loops.zip a.change.factors) = .ok m ∧
      a.change.targets n = .ok targets ∧
      a.bind n = .ok { a with binding := some ⟨m.renumber, targets, rendering⟩ } := by
  obtain ⟨tiles, -⟩ := Change.apply_of_tiling isTiling n
  have fits : a.change.Compatible n := Change.compatible_of_tiling isTiling
  obtain ⟨m, applied, -, -⟩ := h.apply holds fits
  obtain ⟨targets, rendering, found, bound⟩ :=
    exists_bind h holds fits (by simp [unlimited]) applied
  rw [unlimited, findTargets, Except.mapError_eq_ok_iff] at found
  exact ⟨m, targets, rendering, tiles ▸ applied, found, bound⟩

/-- On a reachable nest a tiling of any of its loops binds if no computations are given. Every
arrangement of the loops with their tile sizes gives the same nest. If the loops, put in the order of
their levels, stand each directly inside the one before it, every arrangement is about the same
computations too. Where arithmetic is checked, either all arrangements stop the program or none. -/
theorem Reachable.bind_tiling_perm {n : Nest} (reached : Reachable n) {a : Action}
    (isTiling : a.form = .tiling2D ∨ a.form = .tiling3D)
    (known : ∀ id ∈ a.change.loops, n.contains id = true) (unlimited : a.explicit = none) :
    ∃ bound b, a.bind n = .ok bound ∧ bound.binding = some b ∧
      StopsIf (a.change.Overflows n) (a.bindChecked n) (.ok bound) ∧
      ∀ d : Change, (d.loops.zip d.factors).Perm (a.change.loops.zip a.change.factors) →
        ∃ bound' b', Action.bind { a with change := d } n = .ok bound' ∧
          bound'.binding = some b' ∧ b'.nest = b.nest ∧
          StopsIf (a.change.Overflows n) (Action.bindChecked { a with change := d } n)
            (.ok bound') ∧
          ((a.change.band.map Prod.fst).IsChain n.Within → b'.targets = b.targets) := by
  have h := reached.placed
  have holds : ∀ id ∈ a.change.loops, n.Holds id := fun id mem => h.contains_iff.mp (known id mem)
  obtain ⟨-, ids, -⟩ := Change.apply_of_tiling isTiling n
  have holdsParts : ∀ part ∈ a.change.loops.zip a.change.factors, n.Holds part.1 :=
    fun part mem => holds _ (ids ▸ List.mem_map_of_mem mem)
  obtain ⟨m, targets, rendering, tiled, found, bound⟩ :=
    Action.exists_bind_tiling h isTiling holds unlimited
  refine ⟨_, _, bound, rfl, Action.stopsIf_bindChecked_of_bind h holds bound, fun d perm => ?_⟩
  have form := Change.form_of_perm isTiling perm
  have isTiling' : d.form = .tiling2D ∨ d.form = .tiling3D := form ▸ isTiling
  have holds' : ∀ id ∈ d.loops, n.Holds id := fun id mem =>
    holds id ((Change.loops_of_perm isTiling perm).mem_iff.mp mem)
  obtain ⟨m', targets', rendering', tiled', found', bound'⟩ :=
    Action.exists_bind_tiling (a := { a with change := d }) h isTiling' holds' unlimited
  cases tiled.symm.trans ((h.tile_perm holdsParts perm).symm.trans tiled')
  have holdsParts' : ∀ part ∈ d.loops.zip d.factors, n.Holds part.1 := fun part mem =>
    holdsParts part (perm.mem_iff.mp mem)
  have checked := (Action.stopsIf_bindChecked_of_bind h holds' bound').of_iff
    ⟨Change.overflows_of_perm h holdsParts form perm,
      Change.overflows_of_perm h holdsParts' form.symm perm.symm⟩
  refine ⟨_, _, bound', rfl, rfl, checked, fun chain => ?_⟩
  have same := Change.targets_of_perm h isTiling holds perm chain
  rw [found, found'] at same
  exact Except.ok.inj same

theorem bind_tileRows_turned : ∃ bound b,
    Action.bind { tileRows with
      change := .tiling2D ⟨"x", 1⟩ ⟨"y", 0⟩ ⟨16, by decide, by decide⟩ ⟨8, by decide, by decide⟩ }
        blurNest = .ok bound ∧
      bound.binding = some b ∧ b.nest = tiledNest ∧ b.targets = ["rows"] := by
  obtain ⟨bound, b, binds, binding, -, arranged⟩ :=
    reachable_blur.bind_tiling_perm (a := tileRows) (.inl rfl) (by decide +kernel) rfl
  cases bind_tileRows.symm.trans binds
  cases binding
  obtain ⟨bound', b', binds', binding', nest, -, targets⟩ := arranged
    (.tiling2D ⟨"x", 1⟩ ⟨"y", 0⟩ ⟨16, by decide, by decide⟩ ⟨8, by decide, by decide⟩) (.swap _ _ [])
  have linked : blurNest.isBand (tileRows.change.band.map Prod.fst) = true := by cbv
  exact ⟨bound', b', binds', binding', nest,
    targets (reachable_blur.placed.chain_of_isBand linked)⟩

end LoopNest
