import LoopNest.Proofs.Action.Levels
import LoopNest.Proofs.Nest.Walk

/-! What a tiling does to the nest. The tile loops stand around the outermost loop of the band, each
directly inside the one before it, and the first of them has the place of that loop. What stood
under the loop is as many levels deeper as there are tile loops; nothing else has moved. -/
namespace LoopNest

open Forest

def LoopId.deeper (count : Nat) (id : LoopId) : LoopId := ⟨id.name, id.level + count⟩

def idsFrom (level : Nat) (path : List Loop) : List LoopId :=
  (path.zipIdx level).map fun (loop, level) => ⟨loop.name, level⟩

theorem idsFrom_cons (level : Nat) (loop : Loop) (path : List Loop) :
    idsFrom level (loop :: path) = ⟨loop.name, level⟩ :: idsFrom (level + 1) path := by
  simp [idsFrom]

theorem pathIds_append (xs ys : List Loop) :
    pathIds (xs ++ ys) = pathIds xs ++ idsFrom xs.length ys := by
  simp [pathIds, idsFrom, List.zipIdx_append]

theorem idsFrom_append (level : Nat) (xs ys : List Loop) :
    idsFrom level (xs ++ ys) = idsFrom level xs ++ idsFrom (level + xs.length) ys := by
  simp [idsFrom, List.zipIdx_append]

theorem map_deeper_idsFrom (count level : Nat) (path : List Loop) :
    (idsFrom level path).map (LoopId.deeper count) = idsFrom (level + count) path := by
  induction path generalizing level with
  | nil => rfl
  | cons loop path ih =>
    rw [idsFrom_cons, List.map_cons, ih, idsFrom_cons, Nat.add_right_comm]
    rfl

namespace Nest

/-- The name in a row of loops once the first of the new loops has the place of a loop. -/
def slot (first : LoopId) (tiles : List Loop) (name : String) : String :=
  if name = first.name then (tiles.head?.map Loop.name).getD name else name

/-- One nest is another one with tile loops put around a loop, outermost first. -/
structure Tiled (n m : Nest) (first : LoopId) (tiles : List Loop) : Prop where
  fresh : (tiles.map Loop.name ++ n.loops.names).Nodup
  names : m.loops.names.Perm (tiles.map Loop.name ++ n.loops.names)
  computations : m.computations.Perm n.computations
  outside : ∀ c ids, n.chain c = .ok ids → first ∉ ids → m.chain c = .ok ids
  /-- The chain of a computation under the loop gets the tile loops directly before it. -/
  inside : ∀ c ids, n.chain c = .ok ids → first ∈ ids →
    ∃ before after, ids = before ++ first :: after ∧
      m.chain c = .ok (before ++
        (idsFrom first.level tiles ++ (first :: after).map (LoopId.deeper tiles.length)))
  innermost : ∀ c id, n.loopOf c none = .ok id →
    ∃ id', m.loopOf c none = .ok id' ∧ id'.name = id.name
  /-- The loop itself and those below it are so many levels deeper. It stands directly inside the
  last tile loop, and the first tile loop has its place. Nothing else differs. -/
  kept : ∀ name e, n.entry? name = some e → m.entry? name = some {
    loop := e.loop
    level := e.level +
      if name = first.name ∨ n.encloses first.name name = true then tiles.length else 0
    parent := if name = first.name then tiles.getLast?.map Loop.name else e.parent
    children := e.children.map (slot first tiles)
    computations := e.computations }
  tile : ∀ k tile, tiles[k]? = some tile → ∃ e, n.entry? first.name = some e ∧
    m.entry? tile.name = some {
      loop := tile
      level := first.level + k
      parent := if k = 0 then e.parent else tiles[k - 1]?.map Loop.name
      children := [(tiles[k + 1]?.map Loop.name).getD first.name]
      computations := [] }
  roots : m.roots = n.roots.map fun id => ⟨slot first tiles id.name, id.level⟩

/-- A loop is the tile loop of a loop of a band. -/
structure Counts (n : Nest) (part : LoopId × Factor) (tile : Loop) : Prop where
  lower : tile.lower = .concrete 0
  unmarked : tile.parallel = false ∧ tile.unroll = none ∧ tile.reversed = false
  upper : ∃ e, n.loop? part.1 = some e ∧ tile.upper = tileCount e.loop part.2
  /-- If the bounds of the loop are known and counting its tiles does not leave 64 bits, that is the
  least number that covers its iterations. -/
  known : ∀ e low high, n.loop? part.1 = some e → e.loop.lower = .concrete low →
    e.loop.upper = .concrete high → ¬e.loop.Overflows part.2 →
    ∃ count : Int64, tile.upper = .concrete count ∧
      (high.toInt - low.toInt ≤ 0 → count.toInt = 0) ∧
      (0 < high.toInt - low.toInt →
        (count.toInt - 1) * part.2.val < high.toInt - low.toInt ∧
          high.toInt - low.toInt ≤ count.toInt * part.2.val)

variable {n m : Nest} {first : LoopId} {tiles : List Loop}

theorem loopOf_none_of_chain {c : String} {path : List Loop} {loop : Loop}
    (chain : n.chain c = .ok (pathIds (path ++ [loop]))) :
    n.loopOf c none = .ok ⟨loop.name, path.length⟩ := by
  have last : (pathIds (path ++ [loop])).length - 1 = path.length := by simp [pathIds]
  simp only [loopOf, chain, Option.getD_none, last]
  simp [getElem?_pathIds]

theorem chain_enclose (unique : n.loops.names.Nodup)
    (loops : m.loops = n.loops.enclose first.name tiles) {c : String} {ids : List LoopId}
    (chain : n.chain c = .ok ids) :
    ∃ path, n.loops.chain? c = some path ∧ ids = pathIds path ∧
      m.chain c = .ok (pathIds (insertBefore first.name tiles path)) := by
  obtain ⟨path, found, rfl⟩ := chain_eq_ok_iff_chain?.mp chain
  refine ⟨path, found, rfl, chain_eq_ok_iff_chain?.mpr ⟨_, ?_, rfl⟩⟩
  rw [loops, chain?_enclose unique, found]
  rfl

theorem slot_eq_self {name : String} (differs : name ≠ first.name) :
    slot first tiles name = name := if_neg differs

theorem map_name_tops_enclose_slot {f : Forest} (unique : f.names.Nodup) (some_tile : tiles ≠ []) :
    (f.enclose first.name tiles).tops.map Loop.name =
      (f.tops.map Loop.name).map (slot first tiles) := by
  obtain ⟨top, more, rfl⟩ := List.exists_cons_of_ne_nil some_tile
  exact map_name_tops_enclose unique

theorem Placed.mem_pathIds_iff (h : n.Placed) (holds : n.Holds first) {c : String}
    {path : List Loop} (chain : n.loops.chain? c = some path) :
    first ∈ pathIds path ↔ first.name ∈ path.map Loop.name := by
  constructor
  · intro mem
    rw [pathIds_eq, List.mem_map] at mem
    obtain ⟨⟨name, level⟩, entry, rfl⟩ := mem
    exact List.fst_mem_of_mem_zipIdx entry
  · intro mem
    obtain ⟨outer, t, way, name, deep⟩ := holds
    obtain ⟨after, rfl⟩ := h.exists_after chain way (name ▸ mem)
    rw [pathIds_append, idsFrom_cons, name, deep]
    exact List.mem_append_right _ List.mem_cons_self

/-- The way to a computation under the loop gets the tile loops before the loop. -/
theorem Placed.chain_inside (h : n.Placed) (holds : n.Holds first)
    (loops : m.loops = n.loops.enclose first.name tiles) {c : String} {ids : List LoopId}
    (chain : n.chain c = .ok ids) (mem : first ∈ ids) :
    ∃ before after, ids = before ++ first :: after ∧
      m.chain c = .ok (before ++
        (idsFrom first.level tiles ++ (first :: after).map (LoopId.deeper tiles.length))) := by
  obtain ⟨path, found, rfl, tiled⟩ := chain_enclose h.names loops chain
  rw [h.mem_pathIds_iff holds found] at mem
  obtain ⟨outer, t, way, name, deep⟩ := holds
  obtain ⟨after, rfl⟩ := h.exists_after found way (name ▸ mem)
  have absent : first.name ∉ outer.map Loop.name := by
    have apart := way.nodup h.names
    rw [List.map_append, List.map_cons, name] at apart
    exact fun above => List.disjoint_of_nodup_append apart above List.mem_cons_self
  have whole : idsFrom outer.length (t.loop :: after) =
      first :: idsFrom (outer.length + 1) after := by rw [idsFrom_cons, name, deep]
  refine ⟨pathIds outer, idsFrom (outer.length + 1) after, ?_, ?_⟩
  · rw [pathIds_append, whole]
  · rw [tiled, insertBefore_append_right absent, insertBefore, if_pos name, pathIds_append,
      idsFrom_append, ← whole, map_deeper_idsFrom, deep]

theorem Placed.chain_outside (h : n.Placed) (holds : n.Holds first)
    (loops : m.loops = n.loops.enclose first.name tiles) {c : String} {ids : List LoopId}
    (chain : n.chain c = .ok ids) (apart : first ∉ ids) : m.chain c = .ok ids := by
  obtain ⟨path, found, rfl, tiled⟩ := chain_enclose h.names loops chain
  rw [h.mem_pathIds_iff holds found] at apart
  rw [tiled, insertBefore_of_notMem apart]

theorem Placed.innermost_enclose (h : n.Placed)
    (loops : m.loops = n.loops.enclose first.name tiles) {c : String} {id : LoopId}
    (found : n.loopOf c none = .ok id) : ∃ id', m.loopOf c none = .ok id' ∧ id'.name = id.name := by
  cases chain : n.chain c with
  | error e => simp [loopOf, chain] at found
  | ok ids =>
    obtain ⟨outer, t, way, own, rfl⟩ := h.chain_eq_ok_iff.mp chain
    have here := (chain?_eq_some_iff h.computations).mpr ⟨outer, t, way, own, rfl⟩
    rw [loopOf_none_of_chain chain] at found
    cases found
    obtain ⟨path, there, -, tiled⟩ := chain_enclose h.names loops chain
    cases here.symm.trans there
    have last : (insertBefore first.name tiles (outer ++ [t.loop])).getLast? = some t.loop := by
      rw [getLast?_insertBefore, List.getLast?_concat]
    obtain ⟨init, isPath⟩ := List.getLast?_eq_some_iff.mp last
    rw [isPath] at tiled
    exact ⟨_, loopOf_none_of_chain tiled, rfl⟩

theorem map_slot_tops {t : Tree} (unique : (t.loop.name :: t.body.names).Nodup)
    (same : t.loop.name = first.name) :
    (t.body.tops.map Loop.name).map (slot first tiles) = t.body.tops.map Loop.name := by
  refine (List.map_congr_left fun name mem => slot_eq_self ?_).trans (List.map_id _)
  rintro rfl
  have inside := ((tops_sublist t.body).map Loop.name).subset mem
  exact (List.nodup_cons.mp unique).1 (same ▸ inside)

theorem Placed.entry?_kept (h : n.Placed) (placed : m.Placed) (some_tile : tiles ≠ [])
    (loops : m.loops = n.loops.enclose first.name tiles) {name : String} {e : Entry}
    (found : n.entry? name = some e) : m.entry? name = some {
      loop := e.loop
      level := e.level +
        if name = first.name ∨ n.encloses first.name name = true then tiles.length else 0
      parent := if name = first.name then tiles.getLast?.map Loop.name else e.parent
      children := e.children.map (slot first tiles)
      computations := e.computations } := by
  obtain ⟨outer, t, way, rfl, rfl⟩ := h.entry?_eq_some_iff.mp found
  have unique := way.names_sublist.nodup h.names
  by_cases same : t.loop.name = first.name
  · have moved := way.enclose_self h.names tiles
    rw [same, ← loops] at moved
    obtain ⟨init, last, rfl⟩ := (List.eq_nil_or_concat' tiles).resolve_left some_tile
    refine placed.entry?_eq_some_iff.mpr ⟨_, t, moved, rfl, ?_⟩
    simp only [entryAt, map_slot_tops unique same, same, true_or, if_true]
    simp [← List.append_assoc, Nat.add_assoc]
  · have moved := way.enclose_other h.names same tiles
    rw [← loops] at moved
    refine placed.entry?_eq_some_iff.mpr ⟨_, _, moved, rfl, ?_⟩
    simp [entryAt, same, h.encloses_iff_mem way, length_insertBefore, getLast?_insertBefore,
      map_name_tops_enclose_slot (List.nodup_cons.mp unique).2 some_tile]

theorem Placed.entry?_tile (h : n.Placed) (placed : m.Placed) (holds : n.Holds first)
    (loops : m.loops = n.loops.enclose first.name tiles) {k : Nat} {tile : Loop}
    (at_k : tiles[k]? = some tile) : ∃ e, n.entry? first.name = some e ∧
      m.entry? tile.name = some {
        loop := tile
        level := first.level + k
        parent := if k = 0 then e.parent else tiles[k - 1]?.map Loop.name
        children := [(tiles[k + 1]?.map Loop.name).getD first.name]
        computations := [] } := by
  obtain ⟨outer, t, way, name, deep, -, found⟩ := h.found holds
  refine ⟨_, found, ?_⟩
  obtain ⟨before, after, rfl, rfl⟩ := exists_cut at_k
  have stands := way.enclose_new h.names before after tile
  rw [name, ← loops] at stands
  refine placed.entry?_eq_some_iff.mpr ⟨_, _, stands, rfl, ?_⟩
  have level : 0 + (outer ++ before).length = first.level + before.length := by
    rw [List.length_append, deep, Nat.zero_add]
  have parent : ((outer ++ before).getLast?.map Loop.name).or none =
      if before.length = 0 then ((outer.getLast?.map Loop.name).or none)
      else (before ++ tile :: after)[before.length - 1]?.map Loop.name := by
    rcases List.eq_nil_or_concat' before with rfl | ⟨init, last, rfl⟩
    · simp
    · have back : (init ++ [last] ++ tile :: after)[init.length]? = some last := by simp
      simp [← List.append_assoc, back]
  have inside : (nested after (cons t.loop t.computations t.body nil)).tops.map Loop.name =
      [((before ++ tile :: after)[before.length + 1]?.map Loop.name).getD first.name] := by
    cases after with
    | nil => simp [nested, tops, name]
    | cons next after => simp [nested, tops]
  simp only [entryAt, level, parent, inside]

def Part (n : Nest) (part : LoopId × Factor) (looked : Loop × Factor) : Prop :=
  ∃ e, n.loop? part.1 = some e ∧ looked = (e.loop, part.2)

theorem Placed.forall₂_bandLoops (h : n.Placed) {band : List (LoopId × Factor)}
    (holds : ∀ part ∈ band, n.Holds part.1) {parts : List (Loop × Factor)}
    (found : n.bandLoops band = .ok parts) : List.Forall₂ n.Part band parts := by
  induction band generalizing parts with
  | nil =>
    cases found
    exact .nil
  | cons part band ih =>
    obtain ⟨outer, t, way, name, deep, -, entry⟩ := h.found (holds part List.mem_cons_self)
    have stands := h.loop?_eq_some_iff.mpr ⟨outer, t, way, name, deep, rfl⟩
    simp only [Nest.bandLoops, entry] at found
    split at found
    · next parts behind =>
      cases found
      exact .cons ⟨_, stands, rfl⟩
        (ih (fun part mem => holds part (List.mem_cons_of_mem _ mem)) behind)
    · cases found

theorem counts_tileLoops {band : List (LoopId × Factor)} {parts : List (Loop × Factor)}
    (looked : List.Forall₂ n.Part band parts) (taken : List String) :
    List.Forall₂ n.Counts band (tileLoops taken parts) := by
  induction looked generalizing taken with
  | nil => exact .nil
  | cons first _ ih =>
    obtain ⟨e, stands, rfl⟩ := first
    refine .cons ⟨rfl, ⟨rfl, rfl, rfl⟩, ⟨e, stands, rfl⟩,
      fun e' low high at_part lower upper fits => ?_⟩ (ih _)
    rw [stands] at at_part
    cases at_part
    exact tileCount_concrete lower upper fits

/-- New loops with names of their own, put around a loop, tile it. -/
theorem Placed.tiled (h : n.Placed) (placed : m.Placed) (holds : n.Holds first)
    (some_tile : tiles ≠ []) (fresh : (tiles.map Loop.name ++ n.loops.names).Nodup)
    (loops : m.loops = n.loops.enclose first.name tiles)
    (computations : m.computations.Perm n.computations) : n.Tiled m first tiles where
  fresh := fresh
  names := loops ▸ names_enclose_perm h.names holds.mem_names
  computations := computations
  outside _ _ := h.chain_outside holds loops
  inside _ _ := h.chain_inside holds loops
  innermost _ _ := h.innermost_enclose loops
  kept _ _ := h.entry?_kept placed some_tile loops
  tile _ _ := h.entry?_tile placed holds loops
  roots := by
    have row : (n.loops.enclose first.name tiles).tops.map Loop.name =
        (n.loops.tops.map Loop.name).map (slot first tiles) :=
      map_name_tops_enclose_slot h.names some_tile
    have ids := congrArg (List.map fun name => (⟨name, 0⟩ : LoopId)) row
    simpa [Nest.roots, loops, Function.comp_def] using ids

end Nest

/-- The loops of a tiling with their tile sizes, in the order of their levels. -/
def Change.band (c : Change) : List (LoopId × Factor) :=
  sortBy (fun part => part.1.level) (c.loops.zip c.factors)

theorem Change.apply_of_tiling {c : Change} (isTiling : c.form = .tiling2D ∨ c.form = .tiling3D)
    (n : Nest) : c.apply n = n.tile (c.loops.zip c.factors) ∧
      (c.loops.zip c.factors).map Prod.fst = c.loops ∧ 0 < c.loops.length := by
  cases c with
  | tiling2D | tiling3D => exact ⟨rfl, rfl, Nat.zero_lt_succ _⟩
  | _ => rcases isTiling with form | form <;> cases form

/-- A tiling bound to a reachable nest, with its loops put in the order of their levels: if they
stand each directly inside the one before it, there is a new tile loop for each of them, and the
outermost is tiled with these. Otherwise only the order is worked out anew. -/
theorem Reachable.tiling_rewrites {n : Nest} (reached : Reachable n) {a bound : Action}
    (isTiling : a.form = .tiling2D ∨ a.form = .tiling3D) (binds : a.bind n = .ok bound)
    {b : Binding} (binding : bound.binding = some b) :
    ((bound.change.band.map Prod.fst).IsChain n.Within →
      ∃ first rest tiles, bound.change.band = first :: rest ∧
        tiles.length = bound.change.loops.length ∧
        List.Forall₂ n.Counts bound.change.band tiles ∧ n.Tiled b.nest first.1 tiles) ∧
    (¬(bound.change.band.map Prod.fst).IsChain n.Within →
      b.nest = n.renumber ∧ b.nest.loops = n.loops) := by
  have h := reached.placed
  obtain ⟨change, targets, rendering, m, refers, fits, -, -, applied, rfl⟩ :=
    (Action.bind_eq_ok_iff h).mp binds
  cases binding
  have sameForm : a.form = change.form := refers.1
  rw [sameForm] at isTiling
  obtain ⟨tilesBand, ids, nonempty⟩ := Change.apply_of_tiling isTiling n
  have length : change.band.length = change.loops.length := by
    rw [Change.band, length_sortBy, ← ids, List.length_map, ids]
  have holds : ∀ part ∈ change.loops.zip change.factors, n.Holds part.1 := fun part mem =>
    refers.holds _ (ids ▸ List.mem_map_of_mem mem)
  have holdsBand : ∀ part ∈ change.band, n.Holds part.1 := fun part mem =>
    holds part (mem_sortBy.mp mem)
  constructor
  · intro chain
    have linked := h.isBand_of_chain (List.forall_mem_map.mpr holdsBand) chain
    obtain ⟨first, rest, ordered⟩ := List.exists_cons_of_length_pos (length ▸ nonempty)
    rw [ordered] at linked holdsBand
    obtain ⟨parts, found, tiled, -⟩ := h.tile_eq holds ordered linked
    have counts := Nest.counts_tileLoops (h.forall₂_bandLoops holdsBand found) n.loops.names
    rw [← ordered] at counts
    rw [counts.length_eq] at length
    have placed := (h.of_apply refers.holds fits applied).1
    rw [tilesBand, tiled] at applied
    cases applied
    refine ⟨first, rest, _, ordered, length, counts, ?_⟩
    exact h.tiled placed.renumber.toPlaced (holdsBand first List.mem_cons_self)
      (List.ne_nil_of_length_pos (length ▸ nonempty)) (nodup_tileLoops _ h.names)
      (reached.sound.enclose placed).loops_renumber (sortBy_perm _ _)
  · intro apart
    have unlinked : ¬n.isBand (change.band.map Prod.fst) = true := fun linked =>
      apart (h.chain_of_isBand linked)
    rw [tilesBand, Nest.tile_of_not_band unlinked] at applied
    cases applied
    exact ⟨rfl, reached.sound.loops_renumber⟩

theorem tiledNest_tiles_rows : ∃ tiles,
    tiles.map Loop.upper = [.concrete 8, .concrete 4] ∧
      blurNest.Tiled tiledNest ⟨"y", 0⟩ tiles := by
  have rewritten := reachable_blur.tiling_rewrites (.inl rfl) bind_tileRows rfl
  have sorted : tileRows.change.band =
      [(⟨"y", 0⟩, ⟨8, by decide, by decide⟩), (⟨"x", 1⟩, ⟨16, by decide, by decide⟩)] := by cbv
  have chain : [⟨"y", 0⟩, ⟨"x", 1⟩].IsChain blurNest.Within :=
    reachable_blur.placed.chain_of_isBand (by decide +kernel)
  dsimp only at rewritten
  rw [sorted] at rewritten
  obtain ⟨first, rest, tiles, band, -, counts, tiled⟩ := rewritten.1 chain
  cases band
  refine ⟨tiles, ?_, tiled⟩
  cases counts with
  | cons countsY rest =>
    cases rest with
    | cons countsX rest =>
      cases rest
      obtain ⟨rows, upperY, -, least⟩ := countsY.known _ 0 64 rfl rfl rfl
        ((not_overflows_iff rfl rfl).mpr (by decide))
      obtain ⟨columns, upperX, -, least'⟩ := countsX.known _ 0 64 rfl rfl rfl
        ((not_overflows_iff rfl rfl).mpr (by decide))
      have extent : Int64.toInt 64 - Int64.toInt 0 = 64 := by decide
      rw [extent] at least least'
      have eight : rows.toInt = (8 : Int64).toInt := by
        obtain ⟨less, enough⟩ := least (by decide)
        exact Factor.covers_unique _ less enough (by decide) (by decide)
      have four : columns.toInt = (4 : Int64).toInt := by
        obtain ⟨less, enough⟩ := least' (by decide)
        exact Factor.covers_unique _ less enough (by decide) (by decide)
      simp [upperY, upperX, Int64.toInt_inj.mp eight, Int64.toInt_inj.mp four]

end LoopNest
