import LoopNest.Proofs.Sort
import LoopNest.Proofs.Forest.Path

/-! Sound nests: no two loops have one name, each computation stands at one loop, once, and every
loop lists its computations in execution order. The questions that a nest answers are read off the
ways down its forest. -/
namespace LoopNest
namespace Nest

open Forest

/-- Every loop has a name of its own, and each computation of the order stands at one loop, once. -/
structure Placed (n : Nest) : Prop where
  names : n.loops.names.Nodup
  order : n.order.Nodup
  listed : n.loops.computations.Perm n.order

/-- A placed nest whose loops list their computations in execution order. -/
structure Sound (n : Nest) : Prop extends Placed n where
  ranked : ∀ t ∈ n.loops.subtrees,
    t.computations.Pairwise fun c d => n.order.idxOf c < n.order.idxOf d

/-- A loop of this name stands at this level. -/
def Holds (n : Nest) (id : LoopId) : Prop :=
  ∃ outer t, Way n.loops outer t ∧ t.loop.name = id.name ∧ outer.length = id.level

variable {n : Nest}

theorem Placed.computations (h : n.Placed) : n.loops.computations.Nodup :=
  h.listed.nodup_iff.mpr h.order

theorem Placed.mem_order_iff (h : n.Placed) {c : String} :
    c ∈ n.order ↔ ∃ outer t, Way n.loops outer t ∧ c ∈ t.computations := by
  rw [← h.listed.mem_iff, mem_computations_iff]

theorem Placed.under_subset (h : n.Placed) {outer : List Loop} {t : Tree}
    (way : Way n.loops outer t) : t.under ⊆ n.order :=
  fun _ mem => h.listed.mem_iff.mp ((under_sublist way.mem_subtrees).subset mem)

theorem Placed.nodup_under (h : n.Placed) {outer : List Loop} {t : Tree}
    (way : Way n.loops outer t) : t.under.Nodup :=
  (under_sublist way.mem_subtrees).nodup h.computations

theorem Placed.entry?_eq_some_iff (h : n.Placed) {name : String} {e : Entry} :
    n.entry? name = some e ↔
      ∃ outer t, Way n.loops outer t ∧ t.loop.name = name ∧ e = entryAt 0 none outer t := by
  have unique : (n.entries.map fun e => e.loop.name).Nodup := by
    have names := h.names
    rwa [Forest.names, ← map_loop_entries n.loops 0 none, List.map_map] at names
  rw [ entry?, find?_key_eq_some_iff unique, entries, mem_entries_iff]
  constructor
  · rintro ⟨⟨outer, t, way, rfl⟩, same⟩
    exact ⟨outer, t, way, same, rfl⟩
  · rintro ⟨outer, t, way, same, rfl⟩
    exact ⟨⟨outer, t, way, rfl⟩, same⟩

theorem Placed.loop?_eq_some_iff (h : n.Placed) {id : LoopId} {e : Entry} :
    n.loop? id = some e ↔
      ∃ outer t, Way n.loops outer t ∧ t.loop.name = id.name ∧ outer.length = id.level ∧
        e = entryAt 0 none outer t := by
  rw [loop?, Option.filter_eq_some_iff, h.entry?_eq_some_iff]
  constructor
  · rintro ⟨⟨outer, t, way, same, rfl⟩, deep⟩
    exact ⟨outer, t, way, same, by simpa [entryAt] using deep, rfl⟩
  · rintro ⟨outer, t, way, same, deep, rfl⟩
    exact ⟨⟨outer, t, way, same, rfl⟩, by simpa [entryAt] using deep⟩

theorem Placed.contains_iff (h : n.Placed) {id : LoopId} :
    n.contains id = true ↔ n.Holds id := by
  rw [contains, Option.isSome_iff_exists]
  constructor
  · rintro ⟨e, found⟩
    obtain ⟨outer, t, way, same, deep, _⟩ := h.loop?_eq_some_iff.mp found
    exact ⟨outer, t, way, same, deep⟩
  · rintro ⟨outer, t, way, same, deep⟩
    exact ⟨_, h.loop?_eq_some_iff.mpr ⟨outer, t, way, same, deep, rfl⟩⟩

theorem chain_eq_ok_iff_chain? {c : String} {ids : List LoopId} :
    n.chain c = .ok ids ↔ ∃ path, n.loops.chain? c = some path ∧ ids = pathIds path := by
  simp only [chain]
  cases n.loops.chain? c <;> simp [eq_comm]

theorem Placed.chain_eq_ok_iff (h : n.Placed) {c : String} {ids : List LoopId} :
    n.chain c = .ok ids ↔
      ∃ outer t, Way n.loops outer t ∧ c ∈ t.computations ∧
        ids = pathIds (outer ++ [t.loop]) := by
  rw [chain_eq_ok_iff_chain?]
  constructor
  · rintro ⟨path, found, rfl⟩
    obtain ⟨outer, t, way, mem, rfl⟩ := (chain?_eq_some_iff h.computations).mp found
    exact ⟨outer, t, way, mem, rfl⟩
  · rintro ⟨outer, t, way, mem, rfl⟩
    exact ⟨_, (chain?_eq_some_iff h.computations).mpr ⟨outer, t, way, mem, rfl⟩, rfl⟩

theorem Placed.chain_ok (h : n.Placed) {c : String} (mem : c ∈ n.order) :
    ∃ outer t, Way n.loops outer t ∧ c ∈ t.computations ∧
      n.chain c = .ok (pathIds (outer ++ [t.loop])) := by
  obtain ⟨outer, t, way, hc⟩ := h.mem_order_iff.mp mem
  exact ⟨outer, t, way, hc, h.chain_eq_ok_iff.mpr ⟨outer, t, way, hc, rfl⟩⟩

/-- One loop encloses another if it stands on the way to it. -/
theorem Placed.encloses_iff (h : n.Placed) {a b : String} :
    n.encloses a b = true ↔
      ∃ outer t, Way n.loops outer t ∧ t.loop.name = b ∧ a ∈ outer.map Loop.name := by
  have found := @pathTo?_eq_some_iff n.loops h.names b
  simp only [encloses]
  cases hb : n.loops.pathTo? b with
  | none =>
    simp only [Bool.false_eq_true, false_iff]
    rintro ⟨outer, t, way, same, _⟩
    have := found.mpr ⟨outer, t, way, same, rfl⟩
    simp [hb] at this
  | some path =>
    obtain ⟨outer, t, way, same, rfl⟩ := found.mp hb
    simp only [List.dropLast_concat, List.any_eq_true, beq_iff_eq, List.mem_map]
    constructor
    · intro mem
      exact ⟨outer, t, way, same, mem⟩
    · rintro ⟨outer', t', way', same', mem⟩
      have equal := found.mpr ⟨outer', t', way', same', rfl⟩
      rw [hb] at equal
      obtain ⟨rfl, -⟩ := List.append_inj' (Option.some.inj equal) rfl
      exact mem

theorem Placed.encloses_iff_mem (h : n.Placed) {outer : List Loop} {t : Tree}
    (way : Way n.loops outer t) {name : String} :
    n.encloses name t.loop.name = true ↔ name ∈ outer.map Loop.name := by
  rw [h.encloses_iff]
  constructor
  · rintro ⟨outer', t', way', same, mem⟩
    obtain ⟨rfl, -⟩ := way'.eq_of_name_eq h.names way same
    exact mem
  · exact fun mem => ⟨outer, t, way, rfl, mem⟩

/-- The computations under a loop, in execution order. -/
theorem Placed.computationsUnder_eq_ok_iff (h : n.Placed) {id : LoopId} {cs : List String} :
    n.computationsUnder id = .ok cs ↔
      ∃ outer t, Way n.loops outer t ∧ t.loop.name = id.name ∧ outer.length = id.level ∧
        cs = n.sortByRank t.under := by
  constructor
  · intro found
    simp only [computationsUnder] at found
    split at found
    · next t hid ht =>
      obtain ⟨outer, s, way, same, deep⟩ := h.contains_iff.mp hid
      have equal := (find?_eq_some_iff h.names).mpr ⟨way.mem_subtrees, same⟩
      rw [ht] at equal
      cases equal
      exact ⟨outer, t, way, same, deep, (Except.ok.inj found).symm⟩
    · cases found
  · rintro ⟨outer, t, way, same, deep, rfl⟩
    have hid := h.contains_iff.mpr ⟨outer, t, way, same, deep⟩
    have ht := (find?_eq_some_iff h.names).mpr ⟨way.mem_subtrees, same⟩
    simp only [computationsUnder, hid, ht]
    rfl

theorem getElem?_pathIds (path : List Loop) (level : Nat) :
    (pathIds path)[level]? = path[level]?.map fun loop => ⟨loop.name, level⟩ := by
  simp [pathIds, Function.comp_def]

theorem pathIds_eq (path : List Loop) :
    pathIds path = (path.map Loop.name).zipIdx.map fun (name, level) => ⟨name, level⟩ := by
  simp [pathIds, List.zipIdx_map, Function.comp_def]

end Nest
end LoopNest
