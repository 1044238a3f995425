import LoopNest.Proofs.Action.Apply
import LoopNest.Proofs.Forest.Enclose
import LoopNest.Proofs.Forest.Fuse
import LoopNest.Proofs.Nest.Renumber
import LoopNest.Proofs.Nest.Sharing

/-! How the sharing level of two computations changes with the nest: not at all where loops are
changed in place or computations are renumbered, by the number of new loops where these are put
around both, and to the level of the first loop where the two stand under fused loops. -/
namespace LoopNest

open Forest

namespace Nest

variable {n : Nest}

theorem sharing_renumber (n : Nest) (c d : String) : n.renumber.sharing c d = n.sharing c d := by
  simp only [sharing, chain, chain?_renumber]

/-- Two ways that fork, and what their computations share. -/
theorem Placed.sharing_of_fork (h : n.Placed) {c d : String} {shared p q : List Loop}
    (first : n.loops.chain? c = some (shared ++ p)) (second : n.loops.chain? d = some (shared ++ q))
    (sub : (shared ++ (p ++ q)).Subperm n.loops.loops) :
    n.sharing c d = .ok (Sharing.ofCount shared.length) :=
  sharing_eq first second (nodup_map_of_subperm sub h.names)

variable {c d : String} {path path' : List Loop}

theorem Placed.sharing_mapLoops (h : n.Placed) (first : n.loops.chain? c = some path)
    (second : n.loops.chain? d = some path') {edit : Loop → Loop}
    (unique : (n.loops.mapLoops edit).names.Nodup) :
    Nest.sharing { n with loops := n.loops.mapLoops edit } c d = n.sharing c d := by
  obtain ⟨shared, p, q, rfl, rfl, sub⟩ := h.fork first second
  rw [h.sharing_of_fork first second sub]
  rw [names_mapLoops] at unique
  have apart := nodup_map_of_subperm sub unique
  have left : (n.loops.mapLoops edit).chain? c = some (shared.map edit ++ p.map edit) := by
    rw [chain?_mapLoops, first, Option.map_some, List.map_append]
  have right : (n.loops.mapLoops edit).chain? d = some (shared.map edit ++ q.map edit) := by
    rw [chain?_mapLoops, second, Option.map_some, List.map_append]
  have count := @sharing_eq { n with loops := n.loops.mapLoops edit } c d _ _ _ left right
    (by simpa [Function.comp_def] using apart)
  rwa [List.length_map] at count

theorem Placed.sharing_enclose (h : n.Placed) (first : n.loops.chain? c = some path)
    (second : n.loops.chain? d = some path') (name : String) {tiles : List Loop}
    (apart : (tiles.map Loop.name ++ n.loops.names).Nodup) :
    ∃ level, n.sharing c d = .ok level ∧
      Nest.sharing { n with loops := n.loops.enclose name tiles } c d =
        .ok (if name ∈ path.map Loop.name ∧ name ∈ path'.map Loop.name then
          level.shift tiles.length else level) := by
  obtain ⟨shared, p, q, rfl, rfl, sub⟩ := h.fork first second
  refine ⟨_, h.sharing_of_fork first second sub, ?_⟩
  have unique : ((shared ++ (p ++ q)).map Loop.name).Nodup := nodup_map_of_subperm sub h.names
  have fresh : ((tiles ++ (shared ++ (p ++ q))).map Loop.name).Nodup := by
    refine nodup_map_of_subperm ((List.subperm_append_left tiles).mpr sub) ?_
    rwa [List.map_append]
  have around {shared' p' q' : List Loop}
      (left : insertBefore name tiles (shared ++ p) = shared' ++ p')
      (right : insertBefore name tiles (shared ++ q) = shared' ++ q')
      (unique' : ((shared' ++ (p' ++ q')).map Loop.name).Nodup) :
      Nest.sharing { n with loops := n.loops.enclose name tiles } c d =
        .ok (Sharing.ofCount shared'.length) := by
    refine sharing_eq ?_ ?_ unique'
    · rw [chain?_enclose h.names, first, Option.map_some, left]
    · rw [chain?_enclose h.names, second, Option.map_some, right]
  by_cases inShared : name ∈ shared.map Loop.name
  · have perm := insertBefore_perm tiles inShared
    rw [around (insertBefore_append_left inShared p) (insertBefore_append_left inShared q) ?_,
      perm.length_eq]
    · simp [inShared, Sharing.shift_ofCount, Nat.add_comm]
    · refine ((perm.append_right (p ++ q)).map Loop.name).nodup_iff.mpr ?_
      rwa [List.append_assoc]
  · have apart' : ¬(name ∈ p.map Loop.name ∧ name ∈ q.map Loop.name) := by
      rintro ⟨inP, inQ⟩
      rw [List.map_append, List.map_append, List.nodup_append, List.nodup_append] at unique
      exact unique.2.1.2.2 name inP name inQ rfl
    have unshared : ¬(name ∈ (shared ++ p).map Loop.name ∧ name ∈ (shared ++ q).map Loop.name) := by
      rw [List.map_append, List.map_append, List.mem_append, List.mem_append]
      simpa [inShared] using apart'
    rw [around (insertBefore_append_right inShared p) (insertBefore_append_right inShared q) ?_,
      if_neg unshared]
    have inserted := (List.subperm_append_left shared).mpr (insertBefore_both_subperm tiles apart')
    refine nodup_map_of_subperm (inserted.trans ?_) fresh
    exact (List.perm_append_comm_assoc shared tiles (p ++ q)).subperm

theorem eq_of_fork {shared p q outer r r' : List Loop} {x y : Loop}
    (unique : ((shared ++ (p ++ q)).map Loop.name).Nodup) (differ : x ≠ y)
    (left : shared ++ p = outer ++ x :: r) (right : shared ++ q = outer ++ y :: r') :
    shared = outer ∧ p = x :: r ∧ q = y :: r' := by
  rcases List.append_eq_append_iff.mp left with ⟨more, rfl, rfl⟩ | ⟨more, rfl, first⟩
  · rw [List.append_assoc, List.append_cancel_left_eq] at right
    subst right
    cases more with
    | nil => simp
    | cons z more =>
      simp [List.nodup_append] at unique
  · rw [List.append_assoc, List.append_cancel_left_eq] at right
    cases more with
    | nil => simp_all
    | cons z more =>
      rw [List.cons_append, List.cons.injEq] at first right
      exact absurd (first.1.trans right.1) differ

/-- Two loops on the way by the same loops, fused into the first of them. -/
structure Fused (n m : Nest) (outer : List Loop) (kept removed : Tree) : Prop where
  way : Way n.loops outer kept
  way' : Way n.loops outer removed
  differ : kept.loop.name ≠ removed.loop.name
  loops : m.loops = extend kept.loop.name removed.computations removed.body
    (n.loops.erase removed.loop.name)
  computations : m.loops.computations.Perm n.loops.computations

/-- A fusion that is carried out leaves the loops of a nest fused. -/
theorem Placed.exists_fused (h : n.Placed) {a b : LoopId} (holdsA : n.Holds a) (holdsB : n.Holds b)
    (fits : (Change.fusion a b).Compatible n) {m : Nest}
    (applied : (Change.fusion a b).apply n = .ok m) :
    ∃ outer kept removed, n.Fused m outer kept removed ∧ kept.loop.name = a.name ∧
      removed.loop.name = b.name ∧ outer.length = a.level := by
  have holds : ∀ id ∈ (Change.fusion a b).loops, n.Holds id := by
    simp [Change.loops, holdsA, holdsB]
  obtain ⟨m', applied', placed, same⟩ := h.apply holds fits
  rw [applied] at applied'
  cases applied'
  obtain ⟨differ, level, outer, kept, removed, wayA, wayB, nameA, nameB⟩ := fits
  obtain ⟨outerA, s, wayS, nameS, deep⟩ := id holdsA
  obtain ⟨rfl, -⟩ := wayS.eq_of_name_eq h.names wayA (nameS.trans nameA.symm)
  refine ⟨outerA, kept, removed, ⟨wayA, wayB, ?_, ?_, ?_⟩, nameA, nameB, deep⟩
  · rwa [nameA, nameB]
  · obtain ⟨removed', found, -, fuses⟩ := h.fuse holdsA holdsB differ level
    rw [(find?_eq_some_iff h.names).mpr ⟨wayB.mem_subtrees, nameB⟩] at found
    cases found
    have result : n.fuse a b = .ok m := applied
    rw [fuses] at result
    rw [← Except.ok.inj result, nameA, nameB]
  · have order : m.order = n.order := by rw [Nest.order, same, Nest.order]
    exact (order ▸ placed.listed).trans h.listed.symm

section Fuse

variable {m : Nest} {outer : List Loop} {kept removed : Tree}

theorem Fused.names_perm (f : n.Fused m outer kept removed) (h : n.Placed) :
    n.loops.names.Perm (removed.loop.name :: m.loops.names) := by
  have found := (find?_eq_some_iff h.names).mpr ⟨f.way'.mem_subtrees, rfl⟩
  have unique := f.way'.nodup_names_erase h.names
  have stays := f.way.erase h.names (f.way'.notMem_path h.names f.differ)
  rw [f.loops]
  exact (names_erase_perm h.names found).trans
    ((names_extend_perm unique stays.mem_names _ _).symm.cons _)

theorem Fused.not_both (f : n.Fused m outer kept removed) (h : n.Placed)
    (first : n.loops.chain? c = some path) :
    ¬(kept.loop.name ∈ path.map Loop.name ∧ removed.loop.name ∈ path.map Loop.name) := by
  rintro ⟨byA, byB⟩
  obtain ⟨after, rfl⟩ := h.exists_after first f.way byA
  obtain ⟨after', same⟩ := h.exists_after first f.way' byB
  rw [List.append_cancel_left_eq, List.cons.injEq] at same
  exact f.differ (congrArg Loop.name same.1)

theorem Fused.chain?_eq (f : n.Fused m outer kept removed) (h : n.Placed) (x : String) :
    m.loops.chain? x =
      (n.loops.chain? x).map (List.map (redirect removed.loop.name kept.loop)) :=
  chain?_fuse h.names h.computations f.way f.way' f.differ f.loops f.computations x

theorem Fused.sharing_of_crossed (f : n.Fused m outer kept removed) (h : n.Placed)
    (first : n.loops.chain? c = some path) (second : n.loops.chain? d = some path')
    (byA : kept.loop.name ∈ path.map Loop.name) (byB : removed.loop.name ∈ path'.map Loop.name) :
    m.sharing c d = .ok (.upTo outer.length) ∧ m.sharing d c = .ok (.upTo outer.length) := by
  obtain ⟨r, rfl⟩ := h.exists_after first f.way byA
  obtain ⟨r', rfl⟩ := h.exists_after second f.way' byB
  obtain ⟨shared, p, q, left, right, sub⟩ := h.fork first second
  have unique : ((shared ++ (p ++ q)).map Loop.name).Nodup := nodup_map_of_subperm sub h.names
  have distinct : kept.loop ≠ removed.loop := fun same => f.differ (congrArg Loop.name same)
  obtain ⟨rfl, rfl, rfl⟩ := eq_of_fork unique distinct left.symm right.symm
  have one : m.loops.chain? c = some (shared ++ [kept.loop] ++ r) := by
    rw [f.chain?_eq h, first, Option.map_some,
      map_redirect_of_notMem fun byB => f.not_both h first ⟨byA, byB⟩, List.append_cons]
  have two : m.loops.chain? d = some (shared ++ [kept.loop] ++ r') := by
    have along : ((shared ++ removed.loop :: r').Sublist
        (shared ++ (kept.loop :: r ++ removed.loop :: r'))) :=
      (List.sublist_append_right _ _).append_left shared
    rw [f.chain?_eq h, second, Option.map_some,
      map_redirect_of_nodup (unique.sublist (along.map Loop.name)), List.append_cons]
  have unique' : ((shared ++ [kept.loop] ++ (r ++ r')).map Loop.name).Nodup := by
    rw [← List.append_cons]
    refine unique.sublist (List.Sublist.map Loop.name ?_)
    exact (((List.sublist_cons_self removed.loop r').append_left r).cons_cons _).append_left _
  have swapped : (shared ++ [kept.loop] ++ (r' ++ r)).Perm (shared ++ [kept.loop] ++ (r ++ r')) :=
    List.perm_append_comm.append_left _
  have count : Sharing.ofCount (shared ++ [kept.loop]).length = .upTo shared.length := by
    simp [Sharing.ofCount]
  rw [← count]
  exact ⟨sharing_eq one two unique',
    sharing_eq two one ((swapped.map Loop.name).nodup_iff.mpr unique')⟩

/-- Fused loops are shared by what stood under either; for the rest nothing changes. -/
theorem Placed.sharing_fuse (h : n.Placed) (first : n.loops.chain? c = some path)
    (second : n.loops.chain? d = some path') (f : n.Fused m outer kept removed) :
    ∃ level, n.sharing c d = .ok level ∧
      m.sharing c d = .ok
        (if (kept.loop.name ∈ path.map Loop.name ∧ removed.loop.name ∈ path'.map Loop.name) ∨
            (removed.loop.name ∈ path.map Loop.name ∧ kept.loop.name ∈ path'.map Loop.name)
          then .upTo outer.length else level) := by
  obtain ⟨shared, p, q, rfl, rfl, sub⟩ := h.fork first second
  refine ⟨_, h.sharing_of_fork first second sub, ?_⟩
  split
  · next crossed =>
    rcases crossed with ⟨byA, byB⟩ | ⟨byB, byA⟩
    · exact (f.sharing_of_crossed h first second byA byB).1
    · exact (f.sharing_of_crossed h second first byA byB).2
  · next uncrossed =>
    have unique : ((shared ++ (p ++ q)).map Loop.name).Nodup := nodup_map_of_subperm sub h.names
    have left := f.chain?_eq h c
    have right := f.chain?_eq h d
    rw [first, Option.map_some] at left
    rw [second, Option.map_some] at right
    by_cases byA : kept.loop.name ∈ (shared ++ p).map Loop.name ∨
        kept.loop.name ∈ (shared ++ q).map Loop.name
    · have clear : removed.loop.name ∉ (shared ++ p).map Loop.name ∧
          removed.loop.name ∉ (shared ++ q).map Loop.name := by
        rcases byA with byA | byA
        · exact ⟨fun byB => f.not_both h first ⟨byA, byB⟩, fun byB => uncrossed (.inl ⟨byA, byB⟩)⟩
        · exact ⟨fun byB => uncrossed (.inr ⟨byB, byA⟩), fun byB => f.not_both h second ⟨byA, byB⟩⟩
      rw [map_redirect_of_notMem clear.1] at left
      rw [map_redirect_of_notMem clear.2] at right
      exact sharing_eq left right unique
    · have absent : kept.loop.name ∉ (shared ++ (p ++ q)).map Loop.name := by
        simp only [List.map_append, List.mem_append] at byA ⊢
        tauto
      have unique' := nodup_map_redirect removed.loop.name absent unique
      rw [List.map_append] at left right
      have level := sharing_eq left right (by simpa only [List.map_append] using unique')
      rwa [List.length_map] at level

end Fuse
end Nest
end LoopNest
