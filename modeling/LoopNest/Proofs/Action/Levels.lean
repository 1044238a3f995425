import Mathlib.Data.List.Chain
import LoopNest.Proofs.Action.Bind
import LoopNest.Proofs.Action.Sharing
import LoopNest.Proofs.Reachable

/-! The sharing levels that the backend is told. They are worked out from the nest before the
change: what neighbours share there, the loops that the change puts around both, and the fused loops
where it fuses. They are what the neighbours share in the changed nest. -/
namespace LoopNest

open Forest

namespace Nest

variable {n : Nest}

/-- One loop stands directly inside another. -/
def Within (n : Nest) (outer inner : LoopId) : Prop :=
  ∃ around s t, Way n.loops around s ∧ Way n.loops (around ++ [s.loop]) t ∧
    s.loop.name = outer.name ∧ t.loop.name = inner.name

theorem Placed.level_of_within (h : n.Placed) {a b : LoopId} (holdsA : n.Holds a)
    (holdsB : n.Holds b) (within : n.Within a b) : a.level < b.level := by
  obtain ⟨around, s, t, wayS, wayT, nameS, nameT⟩ := within
  obtain ⟨outerA, s', wayA, nameA, deepA⟩ := holdsA
  obtain ⟨outerB, t', wayB, nameB, deepB⟩ := holdsB
  obtain ⟨rfl, -⟩ := wayA.eq_of_name_eq h.names wayS (nameA.trans nameS.symm)
  obtain ⟨rfl, -⟩ := wayB.eq_of_name_eq h.names wayT (nameB.trans nameT.symm)
  simp at deepB
  omega

theorem Placed.pairwise_level (h : n.Placed) {ids : List LoopId} (holds : ∀ id ∈ ids, n.Holds id)
    (chain : ids.IsChain n.Within) : ids.Pairwise fun a b => a.level < b.level := by
  have levels : (ids.map LoopId.level).IsChain (· < ·) := by
    induction chain with
    | nil => exact .nil
    | singleton a => exact .singleton _
    | @cons_cons a b ids within chain ih =>
      have below := h.level_of_within (holds a (by simp)) (holds b (by simp)) within
      exact .cons_cons below (ih fun id mem => holds id (List.mem_cons_of_mem _ mem))
  exact List.pairwise_map.mp levels.pairwise

theorem Placed.isBand_of_chain (h : n.Placed) {ids : List LoopId}
    (holds : ∀ id ∈ ids, n.Holds id) (chain : ids.IsChain n.Within) : n.isBand ids = true := by
  induction chain with
  | nil => rfl
  | singleton a => rfl
  | @cons_cons a b ids within chain ih =>
    obtain ⟨around, s, t, wayS, wayT, nameS, nameT⟩ := within
    obtain ⟨outerB, t', wayB, nameB, deepB⟩ := holds b (by simp)
    obtain ⟨rfl, -⟩ := wayB.eq_of_name_eq h.names wayT (nameB.trans nameT.symm)
    have found := h.loop?_eq_some_iff.mpr ⟨_, t', wayB, nameB, deepB, rfl⟩
    have rest := ih fun id mem => holds id (List.mem_cons_of_mem _ mem)
    simp [Nest.isBand, found, entryAt, nameS, rest]

theorem Placed.chain_of_isBand (h : n.Placed) {ids : List LoopId} (linked : n.isBand ids = true) :
    ids.IsChain n.Within := by
  induction ids with
  | nil => exact .nil
  | cons a ids ih =>
    cases ids with
    | nil => exact .singleton a
    | cons b ids =>
      simp only [Nest.isBand, Bool.and_eq_true, Option.any_eq_true, beq_iff_eq] at linked
      obtain ⟨⟨e, found, parent⟩, rest⟩ := linked
      obtain ⟨outer, t, way, name, -, rfl⟩ := h.loop?_eq_some_iff.mp found
      refine .cons_cons ?_ (ih rest)
      rcases List.eq_nil_or_concat' outer with rfl | ⟨around, last, rfl⟩
      · simp [entryAt] at parent
      · obtain ⟨s, leads, rfl, -⟩ := way.split
        exact ⟨around, s, t, leads, way, by simpa [entryAt] using parent, name⟩

end Nest

namespace Change

variable {n : Nest}

theorem outermost?_le {ids : List LoopId} {found : LoopId} (least : outermost? ids = some found) :
    ∀ id ∈ ids, found.level ≤ id.level := by
  induction ids generalizing found with
  | nil => simp
  | cons a rest ih =>
    intro id mem
    simp only [outermost?] at least
    split at least
    · next b hb =>
      have behind := ih hb
      split at least
      · next less =>
        cases least
        rcases List.mem_cons.mp mem with rfl | mem
        · exact Nat.le_of_lt less
        · exact behind id mem
      · next less =>
        cases least
        rcases List.mem_cons.mp mem with rfl | mem
        · exact Nat.le_refl _
        · exact Nat.le_trans (Nat.le_of_not_lt less) (behind id mem)
    · next none_left =>
      cases least
      rw [outermost?_eq_none_iff.mp none_left] at mem
      rw [List.mem_singleton.mp mem]

theorem map_sortBy_eq {band : List (LoopId × Factor)} {ids : List LoopId}
    (perm : ids.Perm (band.map Prod.fst)) (levels : ids.Pairwise fun a b => a.level < b.level) :
    (sortBy (fun part => part.1.level) band).map Prod.fst = ids := by
  have ordered := pairwise_sortBy (fun part : LoopId × Factor => part.1.level) band
  have along : ((sortBy (fun part => part.1.level) band).map Prod.fst).Pairwise
      fun a b => a.level ≤ b.level := List.pairwise_map.mpr ordered
  have same := ((sortBy_perm (fun part => part.1.level) band).map Prod.fst).trans perm.symm
  rw [← sortBy_eq_self along, sortBy_eq_of_perm same levels]

theorem outermost?_of_band {first : LoopId} {rest ids : List LoopId}
    (perm : (first :: rest).Perm ids)
    (levels : (first :: rest).Pairwise fun a b => a.level < b.level) :
    outermost? ids = some first := by
  cases least : outermost? ids with
  | none =>
    rw [outermost?_eq_none_iff.mp least] at perm
    exact absurd perm.eq_nil (by simp)
  | some found =>
    have le := outermost?_le least first (perm.mem_iff.mp List.mem_cons_self)
    rcases List.mem_cons.mp (perm.mem_iff.mpr (outermost?_mem least)) with rfl | mem
    · rfl
    · exact absurd ((List.pairwise_cons.mp levels).1 found mem) (Nat.not_lt.mpr le)

end Change

/-- The levels are what the neighbours in an order share in a nest. -/
def Nest.Told (m : Nest) (order : List String) (levels : List Sharing) : Prop :=
  levels.length = order.length - 1 ∧
    ∀ i c d, order[i]? = some c → order[i + 1]? = some d →
      ∃ level, levels[i]? = some level ∧ m.sharing c d = .ok level

namespace Change

variable {n m : Nest} {c : Change} {targets : List String} {levels : List Sharing}

theorem told_of_sharings {added : Nat}
    (found : n.sharings targets added n.order = .ok levels)
    (changed : ∀ x y level, x ∈ n.order → y ∈ n.order → n.sharing x y = .ok level →
      m.sharing x y =
        .ok (if x ∈ targets ∧ y ∈ targets then level.shift added else level)) :
    m.Told n.order levels := by
  obtain ⟨length, each⟩ := Nest.getElem?_sharings found
  refine ⟨length, fun i x y hx hy => ?_⟩
  obtain ⟨level, shares, at_i⟩ := each i x y hx hy
  have mem {j : Nat} {z : String} (at_j : n.order[j]? = some z) : z ∈ n.order :=
    List.mem_of_getElem? at_j
  exact ⟨_, at_i, changed x y level (mem hx) (mem hy) shares⟩

theorem told_of_mapLoops (h : n.Placed) {edit : Loop → Loop}
    (unique : (n.loops.mapLoops edit).names.Nodup)
    (found : n.sharings targets 0 n.order = .ok levels) :
    Nest.Told { n with loops := n.loops.mapLoops edit } n.order levels := by
  refine told_of_sharings found fun x y level hx hy shares => ?_
  obtain ⟨path, first⟩ := h.exists_chain? hx
  obtain ⟨path', second⟩ := h.exists_chain? hy
  rw [h.sharing_mapLoops first second unique, shares, Sharing.shift_zero, ite_self]

theorem told_of_tile (h : n.Placed) {band : List (LoopId × Factor)} {ids : List LoopId}
    (holds : ∀ part ∈ band, n.Holds part.1) (perm : ids.Perm (band.map Prod.fst))
    (chain : ids.IsChain n.Within) {outermost : LoopId}
    (least : outermost? (band.map Prod.fst) = some outermost)
    (under : n.computationsUnder outermost = .ok targets) (tiled : n.tile band = .ok m)
    (found : n.sharings targets band.length n.order = .ok levels) : m.Told n.order levels := by
  have holdsIds : ∀ id ∈ ids, n.Holds id := by
    intro id mem
    obtain ⟨part, hpart, rfl⟩ := List.mem_map.mp (perm.mem_iff.mp mem)
    exact holds part hpart
  have increasing := h.pairwise_level holdsIds chain
  have sorted := map_sortBy_eq perm increasing
  cases parts : sortBy (fun part => part.1.level) band with
  | nil =>
    rw [parts] at sorted
    subst sorted
    rw [← List.Perm.nil_eq perm] at least
    cases least
  | cons first rest =>
    rw [parts] at sorted
    subst sorted
    obtain ⟨tiles, encloses, length, apart⟩ :=
      h.tile_band holds parts (h.isBand_of_chain holdsIds chain)
    rw [tiled] at encloses
    cases encloses
    rw [List.map_cons] at perm increasing
    rw [outermost?_of_band perm increasing] at least
    cases least
    refine told_of_sharings found fun x y level hx hy shares => ?_
    obtain ⟨path, hpath⟩ := h.exists_chain? hx
    obtain ⟨path', hpath'⟩ := h.exists_chain? hy
    obtain ⟨level', shares', shifted⟩ := h.sharing_enclose hpath hpath' first.1.name apart
    rw [shares] at shares'
    cases shares'
    simp only [shifted, length, h.mem_computationsUnder_iff under hpath,
      h.mem_computationsUnder_iff under hpath']

theorem told_of_fuse (h : n.Placed) {a b : LoopId} (holdsA : n.Holds a) (holdsB : n.Holds b)
    (fits : (fusion a b).Compatible n) (applied : (fusion a b).apply n = .ok m)
    (found : n.sharings targets 0 n.order = .ok levels) {adjusted : List Sharing}
    (corrected : (fusion a b).adjustSharings n n.order levels = .ok adjusted) :
    m.Told n.order adjusted := by
  obtain ⟨outer, kept, removed, fused, nameA, nameB, deep⟩ :=
    h.exists_fused holdsA holdsB fits applied
  obtain ⟨underA, hA⟩ := h.computationsUnder_ok holdsA
  obtain ⟨underB, hB⟩ := h.computationsUnder_ok holdsB
  simp only [adjustSharings, hA, hB] at corrected
  have split := (Except.ok.inj corrected).symm
  obtain ⟨length, each⟩ := Nest.getElem?_sharings found
  refine ⟨?_, fun i x y hx hy => ?_⟩
  · simp [split, length]
  · obtain ⟨level', shares, at_i⟩ := each i x y hx hy
    obtain ⟨path, hpath⟩ := h.exists_chain? (List.mem_of_getElem? hx)
    obtain ⟨path', hpath'⟩ := h.exists_chain? (List.mem_of_getElem? hy)
    obtain ⟨level'', shares', merged⟩ := h.sharing_fuse hpath hpath' fused
    rw [shares] at shares'
    cases shares'
    refine ⟨_, ?_, merged⟩
    rw [Sharing.shift_zero, ite_self] at at_i
    have pair : (n.order.zip n.order.tail)[i]? = some (x, y) := by
      rw [List.getElem?_zip_eq_some, List.getElem?_tail]
      exact ⟨hx, hy⟩
    have entry : ((n.order.zip n.order.tail).zip levels)[i]? = some ((x, y), level') :=
      List.getElem?_zip_eq_some.mpr ⟨pair, at_i⟩
    rw [split, List.getElem?_map, entry, Option.map_some]
    simp [h.mem_computationsUnder_iff hA hpath, h.mem_computationsUnder_iff hA hpath',
      h.mem_computationsUnder_iff hB hpath, h.mem_computationsUnder_iff hB hpath', nameA, nameB,
      deep]

/-- The levels that a change is told with are those of the changed nest. A tiling must be about
its whole band, and this a chain of loops each directly inside another. -/
theorem told_of_levels (h : n.Placed) {explicit : Option (List String)}
    (holds : ∀ id ∈ c.loops, n.Holds id) (fits : c.Compatible n)
    (targeted : Action.findTargets n c explicit = .ok targets) (applied : c.apply n = .ok m)
    (banded : c.form = .tiling2D ∨ c.form = .tiling3D →
      explicit = none ∧ ∃ ids : List LoopId, ids.Perm c.loops ∧ ids.IsChain n.Within)
    (found : c.levels n targets = .ok levels) : m.Told n.order levels := by
  obtain ⟨plain, sharings, adjusted⟩ := Except.bind_eq_ok_iff.mp found
  have tiling {band : List (LoopId × Factor)} (parts : band.map Prod.fst = c.loops)
      (tiled : n.tile band = .ok m) (isTiling : c.form = .tiling2D ∨ c.form = .tiling3D)
      (told : n.sharings targets band.length n.order = .ok levels) : m.Told n.order levels := by
    obtain ⟨rfl, ids, perm, chain⟩ := banded isTiling
    have holdsBand : ∀ part ∈ band, n.Holds part.1 := fun part mem =>
      holds _ (parts ▸ List.mem_map_of_mem mem)
    have apart : c.form ≠ .fusion := by
      rcases isTiling with form | form
      · simp [form]
      · simp [form]
    obtain ⟨outermost, least⟩ := exists_outermost? c
    have under := Except.mapError_eq_ok_iff.mp targeted
    rw [targets_of_outermost apart least] at under
    rw [← parts] at perm least
    exact told_of_tile h holdsBand perm chain least under tiled told
  have inPlace (told : n.sharings targets 0 n.order = .ok levels)
      (edits : ∃ edit, c.apply n = .ok { n with loops := n.loops.mapLoops edit } ∧
        (n.loops.mapLoops edit).names.Nodup) : m.Told n.order levels := by
    obtain ⟨edit, edited, unique⟩ := edits
    rw [applied] at edited
    cases edited
    exact told_of_mapLoops h unique told
  cases c with
  | tiling2D a b s t =>
    cases adjusted
    exact tiling rfl applied (.inl rfl) sharings
  | tiling3D a b c s t u =>
    cases adjusted
    exact tiling rfl applied (.inr rfl) sharings
  | interchange a b =>
    cases adjusted
    exact inPlace sharings
      (h.interchange (holds a (by simp [loops])) (holds b (by simp [loops])))
  | parallelization a =>
    cases adjusted
    exact inPlace sharings (h.adjust (holds a (by simp [loops])) fun _ => rfl)
  | unrolling a f =>
    cases adjusted
    exact inPlace sharings (h.adjust (holds a (by simp [loops])) fun _ => rfl)
  | reversal a =>
    cases adjusted
    exact inPlace sharings (h.adjust (holds a (by simp [loops])) fun _ => rfl)
  | fusion a b =>
    exact told_of_fuse h (holds a (by simp [loops])) (holds b (by simp [loops])) fits applied
      sharings adjusted

end Change

/-- The program of an action bound to a reachable nest of several computations ends with the
execution order, in which each computation but the first has the level that it shares with the one
before it in the changed nest. A tiling must be about all computations of its outermost loop, and
its loops, put in some order, stand each directly inside the one before it. -/
theorem Reachable.levels_eq_sharing {n : Nest} (reached : Reachable n)
    (several : 2 ≤ n.order.length) {a bound : Action} (binds : a.bind n = .ok bound) {b : Binding}
    (binding : bound.binding = some b)
    (banded : a.form = .tiling2D ∨ a.form = .tiling3D →
      a.explicit = none ∧
        ∃ ids : List LoopId, ids.Perm bound.change.loops ∧ ids.IsChain n.Within) :
    ∃ levels : List Sharing,
      bound.change.levels n b.targets = .ok levels ∧
      b.rendering.program =
        String.join (b.targets.map bound.change.statement) ++ orderStatement n.order levels ∧
      levels.length + 1 = n.order.length ∧
      ∀ i x y, n.order[i]? = some x → n.order[i + 1]? = some y →
        ∃ level, levels[i]? = some level ∧ b.nest.sharing x y = .ok level := by
  have h := reached.placed
  obtain ⟨change, targets, rendering, m, refers, fits, targeted, rendered, applied, rfl⟩ :=
    (Action.bind_eq_ok_iff h).mp binds
  cases binding
  obtain ⟨levels, found⟩ := Change.levels_ok h refers.holds targets
  have sameForm : a.form = change.form := refers.1
  rw [sameForm] at banded
  obtain ⟨length, told⟩ :=
    Change.told_of_levels h refers.holds fits targeted applied banded found
  refine ⟨levels, found, ?_, by omega, fun i x y hx hy => ?_⟩
  · have many : ¬n.order.length ≤ 1 := by omega
    simp only [Change.render, Change.orderText, many, if_false, found] at rendered
    cases rendered
    rfl
  · obtain ⟨level, at_i, shares⟩ := told i x y hx hy
    exact ⟨level, at_i, by rw [Nest.sharing_renumber, shares]⟩

theorem levels_tileRows :
    ∃ levels : List Sharing,
      tileRows.change.levels blurNest ["rows"] = .ok levels ∧
      tiledRows.rendering.program =
        String.join (["rows"].map tileRows.change.statement) ++
          orderStatement ["rows", "columns"] levels ∧
      levels.length + 1 = 2 ∧
      ∀ i x y, ["rows", "columns"][i]? = some x → ["rows", "columns"][i + 1]? = some y →
        ∃ level, levels[i]? = some level ∧ tiledNest.sharing x y = .ok level := by
  refine Reachable.levels_eq_sharing reachable_blur (Nat.le_refl 2) bind_tileRows rfl fun _ => ?_
  refine ⟨rfl, [⟨"y", 0⟩, ⟨"x", 1⟩], .refl _, .cons_cons ?_ (.singleton _)⟩
  exact ⟨[], _, _, .here, .inside .here, rfl, rfl⟩

end LoopNest
