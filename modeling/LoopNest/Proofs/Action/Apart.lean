import LoopNest.Proofs.Action.Alike
import LoopNest.Proofs.Action.Fusion

/-! What a signature leaves open. Two actions with one signature give the backend the same program.
Whether they leave the same nest is settled by their loops, which the signature does not name: tile
loops are named after the loops that they tile, and a fusion takes one loop out. -/
namespace LoopNest

open Forest

theorem eq_of_map_level_eq {ids ids' : List LoopId}
    (levels : ids.map LoopId.level = ids'.map LoopId.level) (some_of : ids ⊆ ids')
    (distinct : (ids'.map LoopId.level).Nodup) : ids = ids' := by
  refine List.ext_getElem? fun i => ?_
  have at_i := congrArg (·[i]?) levels
  simp only [List.getElem?_map] at at_i
  cases first : ids[i]? with
  | none =>
    rw [first] at at_i
    exact (Option.map_eq_none_iff.mp at_i.symm).symm
  | some a =>
    rw [first] at at_i
    obtain ⟨b, second, level⟩ := Option.map_eq_some_iff.mp at_i.symm
    rw [second, List.inj_on_of_nodup_map distinct (some_of (List.mem_of_getElem? first))
      (List.mem_of_getElem? second) level.symm]

namespace Nest

variable {n m m' : Nest}

theorem Placed.names_tile (h : n.Placed) {band : List (LoopId × Factor)} (nonempty : band ≠ [])
    (holds : ∀ part ∈ band, n.Holds part.1)
    (linked : n.isBand ((sortBy (fun part => part.1.level) band).map Prod.fst) = true)
    (tiled : n.tile band = .ok m) :
    ∃ tiles : List String, m.loops.names.Perm (tiles ++ n.loops.names) ∧ tiles ≠ [] ∧
      (tiles.map stem).Perm
        ((band.map fun part => part.1.name).map fun name => stem (name ++ "_tile")) := by
  have perm := sortBy_perm (fun part : LoopId × Factor => part.1.level) band
  obtain ⟨first, rest, ordered, mem⟩ := exists_sortBy_eq_cons nonempty fun part => part.1.level
  rw [ordered] at perm linked
  obtain ⟨parts, -, applied, names⟩ := h.tile_eq holds ordered linked
  rw [tiled] at applied
  cases applied
  have stems : (((tileLoops n.loops.names parts).map Loop.name).map stem).Perm
      ((band.map fun part => part.1.name).map fun name => stem (name ++ "_tile")) := by
    rw [List.map_map]
    refine (List.Perm.of_eq (map_stem_tileLoops n.loops.names parts)).trans ?_
    rw [names]
    exact (perm.map _).map _
  refine ⟨_, names_enclose_perm h.names (holds first mem).mem_names,
    fun none_left => nonempty ?_, stems⟩
  rw [none_left] at stems
  simpa using stems.length_eq.symm

theorem Placed.nodup_level_of_isBand (h : n.Placed) {band : List (LoopId × Factor)}
    (holds : ∀ part ∈ band, n.Holds part.1)
    (linked : n.isBand ((sortBy (fun part => part.1.level) band).map Prod.fst) = true) :
    ((band.map Prod.fst).map LoopId.level).Nodup := by
  have perm := (sortBy_perm (fun part : LoopId × Factor => part.1.level) band).map Prod.fst
  have holdsSorted : ∀ id ∈ (sortBy (fun part => part.1.level) band).map Prod.fst, n.Holds id :=
    fun id mem => List.forall_mem_map.mpr holds id (perm.mem_iff.mp mem)
  have increasing := h.pairwise_level holdsSorted (h.chain_of_isBand linked)
  rw [← (perm.map LoopId.level).nodup_iff]
  exact List.pairwise_map.mpr (increasing.imp Nat.ne_of_lt)

/-- Tilings that leave loops of the same names tile the same loops, or neither tiles any. -/
theorem Placed.eq_of_tile (h : n.Placed) {band band' : List (LoopId × Factor)}
    (nonempty : band ≠ []) (nonempty' : band' ≠ []) (holds : ∀ part ∈ band, n.Holds part.1)
    (holds' : ∀ part ∈ band', n.Holds part.1)
    (levels : (band.map Prod.fst).map LoopId.level = (band'.map Prod.fst).map LoopId.level)
    (tiled : n.tile band = .ok m) (tiled' : n.tile band' = .ok m')
    (same : m.loops.names = m'.loops.names) :
    band.map Prod.fst = band'.map Prod.fst ∨ (m = n ∧ m' = n) := by
  have unlinked {band : List (LoopId × Factor)} {m : Nest} (tiled : n.tile band = .ok m)
      (apart : ¬n.isBand ((sortBy (fun part => part.1.level) band).map Prod.fst) = true) : m = n :=
    Except.ok.inj (tiled.symm.trans (tile_of_not_band apart))
  have longer {tiles names : List String} (some_left : tiles ≠ []) : ¬names.Perm (tiles ++ names) := by
    intro perm
    have length := perm.length_eq
    rw [List.length_append] at length
    exact some_left (List.length_eq_zero_iff.mp (by omega))
  by_cases linked : n.isBand ((sortBy (fun part => part.1.level) band).map Prod.fst) = true <;>
    by_cases linked' : n.isBand ((sortBy (fun part => part.1.level) band').map Prod.fst) = true
  · obtain ⟨tiles, names, -, stems⟩ := h.names_tile nonempty holds linked tiled
    obtain ⟨tiles', names', -, stems'⟩ := h.names_tile nonempty' holds' linked' tiled'
    rw [same] at names
    have added := (List.perm_append_right_iff n.loops.names).mp (names.symm.trans names')
    have bases := (List.map_perm_map_iff stem_tile_injective).mp
      (stems.symm.trans ((added.map stem).trans stems'))
    refine .inl (eq_of_map_level_eq levels (fun id mem => ?_) (h.nodup_level_of_isBand holds' linked'))
    obtain ⟨part, hpart, rfl⟩ := List.mem_map.mp mem
    obtain ⟨part', hpart', name⟩ := List.mem_map.mp (bases.mem_iff.mp (List.mem_map_of_mem hpart))
    rw [h.eq_of_name_eq (holds part hpart) (holds' part' hpart') name.symm]
    exact List.mem_map_of_mem hpart'
  · obtain ⟨tiles, names, some_left, -⟩ := h.names_tile nonempty holds linked tiled
    rw [same, unlinked tiled' linked'] at names
    exact absurd names (longer some_left)
  · obtain ⟨tiles, names, some_left, -⟩ := h.names_tile nonempty' holds' linked' tiled'
    rw [← same, unlinked tiled linked] at names
    exact absurd names (longer some_left)
  · exact .inr ⟨unlinked tiled linked, unlinked tiled' linked'⟩

section Fuse

variable {outer : List Loop} {kept removed : Tree} {x : String}

theorem Fused.getElem?_chain? (f : n.Fused m outer kept removed) (h : n.Placed)
    (under : x ∈ kept.under ∨ x ∈ removed.under) :
    ∃ path, m.loops.chain? x = some path ∧ path[outer.length]? = some kept.loop := by
  have known : x ∈ n.order := under.elim (h.under_subset f.way ·) (h.under_subset f.way' ·)
  obtain ⟨path, chain⟩ := h.exists_chain? known
  refine ⟨path.map (redirect removed.loop.name kept.loop), by rw [f.chain?_eq h, chain]; rfl, ?_⟩
  rw [h.mem_under_iff chain f.way, h.mem_under_iff chain f.way'] at under
  rcases under with by_kept | by_removed
  · obtain ⟨after, rfl⟩ := h.exists_after chain f.way by_kept
    simp [redirect, f.differ]
  · obtain ⟨after, rfl⟩ := h.exists_after chain f.way' by_removed
    simp [redirect]

theorem Fused.mem_under_of_targets (f : n.Fused m outer kept removed) (h : n.Placed) {a b : LoopId}
    (nameA : kept.loop.name = a.name) (nameB : removed.loop.name = b.name) {cs : List String}
    (about : (Change.fusion a b).targets n = .ok cs) (mem : x ∈ cs) :
    x ∈ kept.under ∨ x ∈ removed.under := by
  simp only [Change.targets, Except.bind_eq_ok_iff, Except.pure_eq_ok_iff] at about
  obtain ⟨underA, foundA, underB, foundB, rfl⟩ := about
  rw [sortByRank, mem_sortBy, List.mem_append] at mem
  exact mem.imp (h.mem_of_computationsUnder foundA f.way nameA).mp
    (h.mem_of_computationsUnder foundB f.way' nameB).mp

end Fuse

/-- Fusions about one computation that leave the same nest fuse the same loops. -/
theorem Placed.eq_of_fuse (h : n.Placed) {a b a' b' : LoopId} {x : String} {cs : List String}
    (holds : n.Holds a ∧ n.Holds b) (holds' : n.Holds a' ∧ n.Holds b')
    (fits : (Change.fusion a b).Compatible n) (fits' : (Change.fusion a' b').Compatible n)
    (level : a.level = a'.level) (applied : (Change.fusion a b).apply n = .ok m)
    (applied' : (Change.fusion a' b').apply n = .ok m')
    (about : (Change.fusion a b).targets n = .ok cs)
    (about' : (Change.fusion a' b').targets n = .ok cs) (mem : x ∈ cs)
    (same : m.renumber = m'.renumber) : a = a' ∧ b = b' := by
  obtain ⟨outer, kept, removed, fused, nameA, nameB, deep⟩ :=
    h.exists_fused holds.1 holds.2 fits applied
  obtain ⟨outer', kept', removed', fused', nameA', nameB', deep'⟩ :=
    h.exists_fused holds'.1 holds'.2 fits' applied'
  constructor
  · obtain ⟨path, chain, merged⟩ :=
      fused.getElem?_chain? h (fused.mem_under_of_targets h nameA nameB about mem)
    obtain ⟨path', chain', merged'⟩ :=
      fused'.getElem?_chain? h (fused'.mem_under_of_targets h nameA' nameB' about' mem)
    rw [← chain?_renumber, same, chain?_renumber, chain'] at chain
    cases chain
    rw [deep, level, ← deep', merged'] at merged
    refine h.eq_of_name_eq holds.1 holds'.1 ?_
    rw [← nameA, ← nameA', Option.some.inj merged]
  · have out := fused.names_perm h
    have out' := fused'.names_perm h
    have names : m.loops.names = m'.loops.names := by
      rw [← names_renumber, same, names_renumber]
    refine h.eq_of_name_eq holds.2 holds'.2 ?_
    rw [nameB, names] at out
    rw [nameB'] at out'
    have unique := List.nodup_cons.mp (out.nodup_iff.mp h.names)
    have mem := out'.mem_iff.mp (out.mem_iff.mpr List.mem_cons_self)
    exact (List.mem_cons.mp mem).resolve_right unique.1

end Nest

namespace Change.Alike

variable {n m m' : Nest} {c d : Change} {targets : List String} {x : String}

/-- Changes that tile or fuse and leave one nest are one change, or change nothing. -/
theorem eq_or_idle (alike : Alike n c d) (h : n.Placed) (holds : ∀ id ∈ c.loops, n.Holds id)
    (holds' : ∀ id ∈ d.loops, n.Holds id) (fits : c.Compatible n) (fits' : d.Compatible n)
    (moves : c.form ∈ [.tiling2D, .tiling3D, .fusion]) (about : c.targets n = .ok targets)
    (mem : x ∈ targets) (applied : c.apply n = .ok m) (applied' : d.apply n = .ok m')
    (same : m.renumber = m'.renumber) : c = d ∨ (m = n ∧ m' = n) := by
  have names : m.loops.names = m'.loops.names := by
    rw [← Nest.names_renumber, same, Nest.names_renumber]
  have tiling {band band' : List (LoopId × Factor)} (nonempty : band ≠ []) (nonempty' : band' ≠ [])
      (parts : band.map Prod.fst = c.loops) (parts' : band'.map Prod.fst = d.loops)
      (tiled : n.tile band = .ok m) (tiled' : n.tile band' = .ok m') :
      c = d ∨ (m = n ∧ m' = n) := by
    rw [← parts] at holds
    rw [← parts'] at holds'
    refine (h.eq_of_tile nonempty nonempty' (List.forall_mem_map.mp holds)
      (List.forall_mem_map.mp holds') ?_ tiled tiled' names).imp_left fun loops => ?_
    · rw [parts, parts', alike.levels]
    · exact alike.eq_of_loops_eq (by rw [← parts, ← parts', loops])
  have form := alike.form
  cases c <;> cases d <;> cases form
  case tiling2D.tiling2D a b s t a' b' s' t' =>
    exact @tiling [(a, s), (b, t)] [(a', s'), (b', t')] (by simp) (by simp) rfl rfl applied applied'
  case tiling3D.tiling3D a b e s t u a' b' e' s' t' u' =>
    exact @tiling [(a, s), (b, t), (e, u)] [(a', s'), (b', t'), (e', u')] (by simp) (by simp) rfl rfl
      applied applied'
  case fusion.fusion a b a' b' =>
    have both : n.Holds a ∧ n.Holds b := by simpa [loops] using holds
    have both' : n.Holds a' ∧ n.Holds b' := by simpa [loops] using holds'
    have level : a.level = a'.level := (List.cons.inj alike.levels).1
    obtain ⟨rfl, rfl⟩ := h.eq_of_fuse both both' fits fits' level applied applied' about
      (alike.targets.symm.trans about) mem same
    exact .inl rfl
  all_goals simp [Change.form] at moves

end Change.Alike

/-- Two actions without given targets, bound to one nest whose computations have no quotes in their
names: if their signatures are one text, so are their programs, and both are about the same
computations. Where their loops have computations in common, position by position, both are one
change with one result. Where they are about any computation, the results are the same exactly if
the actions neither tile nor fuse, or are one change, or both change nothing. -/
theorem Reachable.binding_eq_of_signature_eq {n : Nest} (reached : Reachable n)
    (unquoted : ∀ c ∈ n.order, Unquoted c) {a b bound bound' : Action} {left right : Binding}
    (free : a.explicit = none) (free' : b.explicit = none)
    (binds : a.bind n = .ok bound) (binds' : b.bind n = .ok bound')
    (hasLeft : bound.binding = some left) (hasRight : bound'.binding = some right)
    (signed : left.rendering.signature = right.rendering.signature) :
    left.rendering = right.rendering ∧ left.targets = right.targets ∧
      bound.form = bound'.form ∧
      (List.Forall₂ n.Common bound.change.loops bound'.change.loops →
        bound.change = bound'.change ∧ left = right) ∧
      (left.targets ≠ [] →
        (left = right ↔ bound.form ∉ [.tiling2D, .tiling3D, .fusion] ∨
          bound.change = bound'.change ∨
          (bound.change.apply n = .ok n ∧ bound'.change.apply n = .ok n))) := by
  have h := reached.placed
  obtain ⟨c, targets, rendering, m, refers, fits, found, rendered, applied, rfl⟩ :=
    (Action.bind_eq_ok_iff h).mp binds
  obtain ⟨d, targets', rendering', m', refers', fits', found', rendered', applied', rfl⟩ :=
    (Action.bind_eq_ok_iff h).mp binds'
  cases hasLeft
  cases hasRight
  rw [free, Action.findTargets, Except.mapError_eq_ok_iff] at found
  rw [free', Action.findTargets, Except.mapError_eq_ok_iff] at found'
  have signatures : c.signature targets = d.signature targets' :=
    (Change.signature_of_render rendered).symm.trans
      (signed.trans (Change.signature_of_render rendered'))
  obtain ⟨form, levels, factors, rfl⟩ := (Change.signature_inj
    (fun x mem => unquoted x (Change.targets_subset h found mem))
    (fun x mem => unquoted x (Change.targets_subset h found' mem))).mp signatures
  have alike : Change.Alike n c d := ⟨form, levels, factors, found.trans found'.symm⟩
  have same := alike.render_eq h refers.holds refers'.holds fits fits' signatures
  obtain rfl : rendering = rendering' :=
    Except.ok.inj (rendered.symm.trans (same.trans rendered'))
  refine ⟨rfl, rfl, form, fun common => ?_, fun some_left => ⟨fun one => ?_, ?_⟩⟩
  · obtain rfl := alike.eq_of_common h common
    obtain rfl : m = m' := Except.ok.inj (applied.symm.trans applied')
    exact ⟨rfl, rfl⟩
  · by_cases plain : c.form ∉ [.tiling2D, .tiling3D, .fusion]
    · exact .inl plain
    · obtain ⟨x, mem⟩ := List.exists_mem_of_ne_nil _ some_left
      refine .inr ((alike.eq_or_idle h refers.holds refers'.holds fits fits' (not_not.mp plain) found
        mem applied applied' (congrArg Binding.nest one)).imp_right fun idle => ?_)
      exact ⟨applied.trans (congrArg _ idle.1), applied'.trans (congrArg _ idle.2)⟩
  · intro alternatives
    have made : c.apply n = d.apply n := by
      rcases alternatives with plain | same | ⟨idle, idle'⟩
      · exact alike.apply_eq h refers.holds refers'.holds fits fits' plain fun none_left =>
          some_left (Except.ok.inj (found.symm.trans none_left))
      · exact congrArg (Change.apply n) same
      · exact idle.trans idle'.symm
    obtain rfl : m = m' := Except.ok.inj (applied.symm.trans (made.trans applied'))
    rfl

def exchangeParted (inner : String) : Action where
  change := .interchange ⟨"i", 0⟩ ⟨inner, 1⟩

def exchangedParted : Binding where
  nest := partedNest
  targets := ["s0", "s", "s1"]
  rendering := {
    program := "s0.interchange(0, 1);\n" ++ "s.interchange(0, 1);\n" ++
      "s1.interchange(0, 1);\n" ++ clearStatement ++ "s0.then(s,0).then(s1,0);\n"
    signature := "I(L0,L1,comps=['s0', 's', 's1'])"
    legality := "s0.interchange(0, 1);\n" ++ "s.interchange(0, 1);\n" ++
      "s1.interchange(0, 1);\n" ++ clearStatement ++ "s0.then(s,0).then(s1,0);\n" }

set_option maxRecDepth 2000 in
theorem binding_exchangeParted : ∃ left right,
    (exchangeParted "a").bind partedNest =
      .ok { exchangeParted "a" with binding := some left } ∧
    (exchangeParted "b").bind partedNest =
      .ok { exchangeParted "b" with binding := some right } ∧
    left.rendering.signature = right.rendering.signature ∧ left = right := by
  have unquoted : ∀ c ∈ partedNest.order, Unquoted c := by decide
  have binds : (exchangeParted "a").bind partedNest =
      .ok { exchangeParted "a" with binding := some exchangedParted } := by cbv
  have binds' : (exchangeParted "b").bind partedNest =
      .ok { exchangeParted "b" with binding := some exchangedParted } := by cbv
  obtain ⟨-, -, -, -, unchanged⟩ := reachable_parted.binding_eq_of_signature_eq unquoted rfl rfl
    binds binds' rfl rfl rfl
  exact ⟨_, _, binds, binds', rfl, (unchanged (by decide)).mpr (.inl (by decide))⟩

def tileParted (inner : String) : Action where
  change := .tiling2D ⟨"i", 0⟩ ⟨inner, 1⟩ ⟨4, by decide, by decide⟩ ⟨5, by decide, by decide⟩

def tiledParted (tile : String) : Binding where
  nest := {
    loops :=
      .cons { name := "i_tile", lower := .concrete 0, upper := .concrete 3 } []
        (.cons { name := tile, lower := .concrete 0, upper := .concrete 2 } [] partedNest.loops .nil)
        .nil
    computations := partedNest.computations }
  targets := ["s0", "s", "s1"]
  rendering := {
    program := "s0.tile(0, 1, 4, 5);\n" ++ "s.tile(0, 1, 4, 5);\n" ++ "s1.tile(0, 1, 4, 5);\n" ++
      clearStatement ++ "s0.then(s,2).then(s1,2);\n"
    signature := "T2(L0,L1,4,5,comps=['s0', 's', 's1'])"
    legality := "s0.tile(0, 1, 4, 5);\n" ++ "s.tile(0, 1, 4, 5);\n" ++ "s1.tile(0, 1, 4, 5);\n" ++
      clearStatement ++ "s0.then(s,2).then(s1,2);\n" }

set_option maxRecDepth 2000 in
theorem bind_tileParted : (tileParted "a").bind partedNest =
    .ok { tileParted "a" with binding := some (tiledParted "a_tile") } := by
  cbv

set_option maxRecDepth 2000 in
/-- Where a loop branches, tilings of different bands have one signature and leave different nests. -/
theorem nest_tileParted_ne : Reachable partedNest ∧
    (tileParted "a").bind partedNest =
      .ok { tileParted "a" with binding := some (tiledParted "a_tile") } ∧
    (tileParted "b").bind partedNest =
      .ok { tileParted "b" with binding := some (tiledParted "b_tile") } ∧
    (tiledParted "a_tile").rendering.signature = (tiledParted "b_tile").rendering.signature ∧
    (tiledParted "a_tile").nest ≠ (tiledParted "b_tile").nest :=
  ⟨reachable_parted, bind_tileParted, by cbv, rfl, by decide⟩

end LoopNest
