import LoopNest.Proofs.Action.Exchanged
import LoopNest.Proofs.Action.Tiled
import LoopNest.Proofs.Nest.Views

/-! New loops and the names of computations. A name and a level that are those of a loop stand for
it, and only else for the loop at that level around a computation. Of the changes only tilings bring
in names, and these are looked for among the names of loops. So where no loop has a computation's
name, after a change a computation's name and a level stand for the loop around it, unless that is
the name and level of a tile loop elsewhere. -/
namespace LoopNest

open Forest

/-- The name of a tile loop: that of the loop it tiles with a suffix, and perhaps a number. -/
def NamedAfter (tiled name : String) : Prop :=
  name = tiled ++ "_tile" ∨ ∃ k : Nat, name = tiled ++ "_tile" ++ toString (k + 1)

theorem namedAfter_of_mem_tileLoops {taken : List String} {band : List (Loop × Factor)} {tile : Loop}
    (mem : tile ∈ tileLoops taken band) : ∃ part ∈ band, NamedAfter part.1.name tile.name := by
  induction band generalizing taken with
  | nil => cases mem
  | cons part band ih =>
    rcases List.mem_cons.mp mem with rfl | behind
    · refine ⟨part, List.mem_cons_self, ?_⟩
      by_cases isTaken : part.1.name ++ "_tile" ∈ taken
      · obtain ⟨k, numbered, -⟩ := exists_freshName isTaken
        exact .inr ⟨k, numbered⟩
      · exact .inl (freshName_of_notMem isTaken)
    · obtain ⟨other, inBand, named⟩ := ih behind
      exact ⟨other, List.mem_cons_of_mem _ inBand, named⟩

namespace Nest

variable {n m : Nest}

theorem Placed.mem_names_of_tile (h : n.Placed) {band : List (LoopId × Factor)} (nonempty : band ≠ [])
    (holds : ∀ part ∈ band, n.Holds part.1) (tiled : n.tile band = .ok m) {name : String}
    (mem : name ∈ m.loops.names) :
    name ∈ n.loops.names ∨ ∃ part ∈ band, NamedAfter part.1.name name := by
  by_cases linked : n.isBand ((sortBy (fun part => part.1.level) band).map Prod.fst) = true
  · obtain ⟨first, rest, ordered, inBand⟩ := exists_sortBy_eq_cons nonempty fun part => part.1.level
    rw [ordered] at linked
    obtain ⟨parts, -, encloses, names⟩ := h.tile_eq holds ordered linked
    rw [tiled] at encloses
    cases encloses
    have among := (names_enclose_perm h.names (holds first inBand).mem_names).mem_iff.mp mem
    refine (List.mem_append.mp among).symm.imp_right fun isNew => ?_
    obtain ⟨tile, isTile, rfl⟩ := List.mem_map.mp isNew
    obtain ⟨part, inParts, named⟩ := namedAfter_of_mem_tileLoops isTile
    have ofBand : part.1.name ∈ (first :: rest).map fun part => part.1.name :=
      names ▸ List.mem_map_of_mem inParts
    obtain ⟨other, sorted, same⟩ := List.mem_map.mp ofBand
    exact ⟨other, mem_sortBy.mp (ordered ▸ sorted), same ▸ named⟩
  · rw [tile_of_not_band linked] at tiled
    cases tiled
    exact .inl mem

end Nest

namespace Change

variable {n m : Nest} {c : Change}

/-- A change that neither tiles nor fuses at most rearranges the names of the loops. -/
theorem names_perm_of_apply (h : n.Placed) (holds : ∀ id ∈ c.loops, n.Holds id)
    (plain : c.form ∉ [.tiling2D, .tiling3D, .fusion]) (applied : c.apply n = .ok m) :
    m.loops.names.Perm n.loops.names := by
  have adjusted {id : LoopId} (held : n.Holds id) {change : Loop → Loop}
      (applied : n.adjust id change = .ok m) (named : ∀ loop, (change loop).name = loop.name) :
      m.loops.names.Perm n.loops.names := by
    rw [h.adjust_eq held] at applied
    cases applied
    exact .of_eq (names_adjust named id.name n.loops)
  cases c with
  | parallelization a => exact adjusted (holds a (by simp [loops])) applied fun _ => rfl
  | unrolling a f => exact adjusted (holds a (by simp [loops])) applied fun _ => rfl
  | reversal a => exact adjusted (holds a (by simp [loops])) applied fun _ => rfl
  | interchange a b =>
    by_cases swaps : n.swappable (Nest.ordered a b).1 (Nest.ordered a b).2 = true
    · obtain ⟨s, t, foundA, foundB, exchanged⟩ :=
        h.exchange (holds a (by simp [loops])) (holds b (by simp [loops])) swaps
      cases applied.symm.trans exchanged
      exact Nest.names_exchange_perm h.names ((find?_eq_some_iff h.names).mp foundA).1
        ((find?_eq_some_iff h.names).mp foundB).1
    · cases applied.symm.trans (Nest.interchange_of_not_swappable swaps)
      exact .refl _
  | _ => simp [form] at plain

theorem mem_names_of_apply (h : n.Placed) (holds : ∀ id ∈ c.loops, n.Holds id)
    (fits : c.Compatible n) (applied : c.apply n = .ok m) {name : String}
    (mem : name ∈ m.loops.names) :
    name ∈ n.loops.names ∨ ((c.form = .tiling2D ∨ c.form = .tiling3D) ∧
      ∃ id ∈ c.loops, NamedAfter id.name name) := by
  by_cases tiles : c.form = .tiling2D ∨ c.form = .tiling3D
  · obtain ⟨tilesBand, ids, some_loop⟩ := apply_of_tiling tiles n
    have nonempty : c.loops.zip c.factors ≠ [] := fun none_left => by
      rw [← ids, none_left] at some_loop
      exact Nat.lt_irrefl 0 some_loop
    refine (h.mem_names_of_tile nonempty (fun part inBand => ?_) (tilesBand ▸ applied) mem).imp_right
      fun ⟨part, inBand, named⟩ => ⟨tiles, part.1, ?_, named⟩
    · exact holds _ (ids ▸ List.mem_map_of_mem inBand)
    · exact ids ▸ List.mem_map_of_mem inBand
  · by_cases fuses : c.form = .fusion
    · cases c with
      | fusion a b =>
        obtain ⟨outer, kept, removed, fused, -⟩ :=
          h.exists_fused (holds a (by simp [loops])) (holds b (by simp [loops])) fits applied
        exact .inl ((fused.names_perm h).mem_iff.mpr (List.mem_cons_of_mem _ mem))
      | _ => cases fuses
    · have plain : c.form ∉ [.tiling2D, .tiling3D, .fusion] := by
        simpa [not_or, and_assoc] using And.intro tiles fuses
      exact .inl ((names_perm_of_apply h holds plain applied).mem_iff.mp mem)

/-- A computation's name and a level are those of a loop that a tiling of one nest has put into
another one, but not around the computation. -/
structure Captures (n m : Nest) (c : Change) (id : LoopId) : Prop where
  tiles : c.form = .tiling2D ∨ c.form = .tiling3D
  loop : m.contains id = true ∧ id.name ∉ n.loops.names
  named : ∃ tiled ∈ c.loops, NamedAfter tiled.name id.name
  /-- The loop is not on the chain of the computation of its name. -/
  outside : ∀ ids, m.chain id.name = .ok ids → id ∉ ids

/-- Where no loop has a computation's name, only a tiling gives one to a loop. -/
theorem captures_of_contains (h : n.Placed) (holds : ∀ id ∈ c.loops, n.Holds id)
    (fits : c.Compatible n) (applied : c.apply n = .ok m)
    (apart : ∀ x ∈ n.order, x ∉ n.loops.names) {id : LoopId} (isLoop : m.renumber.contains id = true)
    (known : id.name ∈ m.renumber.order)
    (outside : ∀ ids, m.renumber.chain id.name = .ok ids → id ∉ ids) :
    c.Captures n m.renumber id := by
  obtain ⟨placed, same⟩ := h.of_apply holds fits applied
  have order : m.order = n.order := congrArg (List.map Computation.name) same
  have isNew : id.name ∉ n.loops.names :=
    apart id.name (order ▸ m.order_renumber_perm.mem_iff.mp known)
  have named : id.name ∈ m.loops.names :=
    m.names_renumber ▸ (placed.renumber.toPlaced.contains_iff.mp isLoop).mem_names
  obtain ⟨tiles, tiled⟩ := (mem_names_of_apply h holds fits applied named).resolve_left isNew
  exact ⟨tiles, ⟨isLoop, isNew⟩, tiled, outside⟩

end Change

theorem Nest.Placed.resolve_eq_ok_iff_mem {m : Nest} (h : m.Placed) {c : String} {ids : List LoopId}
    (chain : m.chain c = .ok ids) {level : Nat} {id : LoopId} (at_level : ids[level]? = some id) :
    m.resolve ⟨c, level⟩ = .ok id ↔ (m.contains ⟨c, level⟩ = true → ⟨c, level⟩ ∈ ids) := by
  have known : c ∈ m.order := by
    obtain ⟨outer, t, way, own, -⟩ := h.chain_eq_ok_iff.mp chain
    exact h.mem_order_iff.mpr ⟨outer, t, way, own⟩
  obtain ⟨ids', innermost, chained⟩ := h.exists_chained known
  cases chain.symm.trans chained.chain
  by_cases isLoop : m.contains ⟨c, level⟩ = true
  · have resolved : m.resolve ⟨c, level⟩ = .ok ⟨c, level⟩ := if_pos isLoop
    rw [resolved, Except.ok.injEq]
    constructor
    · rintro rfl -
      exact List.mem_of_getElem? at_level
    · intro onChain
      obtain ⟨i, at_i⟩ := List.getElem?_of_mem (onChain isLoop)
      have deep := (chained.levels i _ at_i).1
      rw [← deep, at_level] at at_i
      exact (Option.some.inj at_i).symm
  · have resolved : m.resolve ⟨c, level⟩ = .ok id :=
      (if_neg isLoop).trans (chained.at_level level id at_level).1
    exact iff_of_true resolved fun loop => absurd loop isLoop

/-- In a reachable nest in which no loop has a computation's name, let an action bind. In the changed
nest the name of a computation and a level of its chain stand for the loop at that level, exactly
unless they are those of a loop that a tiling has put in elsewhere; then they stand for this. -/
theorem Reachable.resolve_bound_iff {n m : Nest} (reached : Reachable n)
    (apart : ∀ c ∈ n.order, c ∉ n.loops.names) {a bound : Action} (binds : a.bind n = .ok bound)
    (changed : bound.nest? = some m) {c : String} {ids : List LoopId} (chain : m.chain c = .ok ids)
    {level : Nat} {id : LoopId} (at_level : ids[level]? = some id) :
    (m.resolve ⟨c, level⟩ = .ok id ↔ ¬bound.change.Captures n m ⟨c, level⟩) ∧
      (bound.change.Captures n m ⟨c, level⟩ → m.resolve ⟨c, level⟩ = .ok ⟨c, level⟩) := by
  have h := reached.placed
  have placed := (Action.sound_of_bind h binds changed).toPlaced
  obtain ⟨outer, t, way, own, -⟩ := placed.chain_eq_ok_iff.mp chain
  have known : c ∈ m.order := placed.mem_order_iff.mpr ⟨outer, t, way, own⟩
  obtain ⟨change, targets, rendering, left, refers, fits, -, -, applied, rfl⟩ :=
    (Action.bind_eq_ok_iff h).mp binds
  cases changed
  have captured : change.Captures n left.renumber ⟨c, level⟩ ↔
      left.renumber.contains ⟨c, level⟩ = true ∧ ⟨c, level⟩ ∉ ids := by
    refine ⟨fun capture => ⟨capture.loop.1, capture.outside ids chain⟩, fun ⟨isLoop, outside⟩ => ?_⟩
    refine Change.captures_of_contains h refers.holds fits applied apart isLoop known ?_
    intro ids' chain'
    cases chain.symm.trans chain'
    exact outside
  refine ⟨?_, fun capture => if_pos capture.loop.1⟩
  rw [placed.resolve_eq_ok_iff_mem chain at_level, captured, not_and, not_not]

def namesake : List Declaration := [
  .loop ⟨"i", none, .concrete 0, .concrete 64⟩,
  .loop ⟨"j", some "i", .concrete 0, .concrete 64⟩,
  .computation ⟨"s", "j", ""⟩,
  .loop ⟨"v", none, .concrete 0, .concrete 64⟩,
  .computation ⟨"i_tile", "v", ""⟩]

def namesakeNest : Nest where
  loops :=
    .cons { name := "i", lower := .concrete 0, upper := .concrete 64 } []
      (.cons { name := "j", lower := .concrete 0, upper := .concrete 64 } ["s"] .nil .nil) <|
    .cons { name := "v", lower := .concrete 0, upper := .concrete 64 } ["i_tile"] .nil .nil
  computations := [⟨"s", ""⟩, ⟨"i_tile", ""⟩]

theorem reachable_namesake : Reachable namesakeNest :=
  have put : Declaration.nest? namesake = .ok namesakeNest := by cbv
  .declared put

/-- Tiles the first two loops. -/
def tileNamesake : Action where
  change := .tiling2D ⟨"i", 0⟩ ⟨"j", 1⟩ ⟨32, by decide, by decide⟩ ⟨32, by decide, by decide⟩

def tiledNamesake : Binding where
  nest := {
    loops :=
      .cons { name := "i_tile", lower := .concrete 0, upper := .concrete 2 } []
        (.cons { name := "j_tile", lower := .concrete 0, upper := .concrete 2 } []
          (.cons { name := "i", lower := .concrete 0, upper := .concrete 64 } []
            (.cons { name := "j", lower := .concrete 0, upper := .concrete 64 } ["s"] .nil .nil)
            .nil)
          .nil) <|
      .cons { name := "v", lower := .concrete 0, upper := .concrete 64 } ["i_tile"] .nil .nil
    computations := [⟨"s", ""⟩, ⟨"i_tile", ""⟩] }
  targets := ["s"]
  rendering := {
    program := "s.tile(0, 1, 32, 32);\n" ++ clearStatement ++ "s.then(i_tile,-1);\n"
    signature := "T2(L0,L1,32,32,comps=['s'])"
    legality := "s.tile(0, 1, 32, 32);\n" ++ clearStatement ++ "s.then(i_tile,-1);\n" }

theorem bind_tileNamesake :
    tileNamesake.bind namesakeNest = .ok { tileNamesake with binding := some tiledNamesake } := by
  cbv

/-- No loop has a computation's name before, and still the tiling captures the second computation's:
it stands for the tile loop and not for the loop around the computation. -/
theorem resolve_tiledNamesake_ne : Reachable namesakeNest ∧
    (∀ c ∈ namesakeNest.order, c ∉ namesakeNest.loops.names) ∧
    tileNamesake.bind namesakeNest = .ok { tileNamesake with binding := some tiledNamesake } ∧
    tiledNamesake.nest.chain "i_tile" = .ok [⟨"v", 0⟩] ∧
    tiledNamesake.nest.resolve ⟨"i_tile", 0⟩ ≠ .ok ⟨"v", 0⟩ :=
  ⟨reachable_namesake, by decide, bind_tileNamesake, by decide +kernel, by decide +kernel⟩

theorem resolve_tiledNamesake :
    tiledNamesake.nest.resolve ⟨"s", 2⟩ = .ok ⟨"i", 2⟩ ∧
      tiledNamesake.nest.resolve ⟨"i_tile", 0⟩ = .ok ⟨"i_tile", 0⟩ := by
  have apart : ∀ c ∈ namesakeNest.order, c ∉ namesakeNest.loops.names := by decide
  have around : tiledNamesake.nest.chain "s" =
      .ok [⟨"i_tile", 0⟩, ⟨"j_tile", 1⟩, ⟨"i", 2⟩, ⟨"j", 3⟩] := by decide +kernel
  have elsewhere : tiledNamesake.nest.chain "i_tile" = .ok [⟨"v", 0⟩] := by decide +kernel
  refine ⟨(reachable_namesake.resolve_bound_iff apart bind_tileNamesake rfl around rfl).1.mpr
    fun capture => ?_,
    (reachable_namesake.resolve_bound_iff apart bind_tileNamesake rfl elsewhere rfl).2 ?_⟩
  · exact absurd capture.loop.1 (by decide)
  · refine ⟨.inl rfl, ⟨by decide, by decide⟩, ⟨⟨"i", 0⟩, List.mem_cons_self, .inl rfl⟩,
      fun ids chain => ?_⟩
    cases elsewhere.symm.trans chain
    decide

end LoopNest
