import LoopNest.Nest.Sharing
import LoopNest.Proofs.Nest.Sound

/-! Sharing levels count the loops that two computations have in common. Walking outwards from both
innermost loops, the deeper one first, never passes the place where the two ways part, so what the
walk finds is the last loop before it. -/
namespace LoopNest

def Sharing.ofCount : Nat → Sharing
  | 0 => independent
  | count + 1 => upTo count

theorem Sharing.shift_ofCount (count added : Nat) :
    (ofCount count).shift added = ofCount (count + added) := by
  cases added with
  | zero => rfl
  | succ added =>
    cases count with
    | zero => simp [ofCount, shift]
    | succ count =>
      have sum : count + 1 + (added + 1) = count + (added + 1) + 1 := by omega
      rw [sum]
      rfl

theorem Sharing.shift_zero (level : Sharing) : level.shift 0 = level := by
  cases level <;> rfl

theorem nodup_map_of_subperm {α β : Type} {f : α → β} {xs ys : List α} (sub : xs.Subperm ys)
    (unique : (ys.map f).Nodup) : (xs.map f).Nodup := by
  obtain ⟨zs, perm, sublist⟩ := sub
  exact (perm.map f).nodup_iff.mp ((sublist.map f).nodup unique)

theorem reverse_pathIds_concat (path : List Loop) (loop : Loop) :
    (pathIds (path ++ [loop])).reverse = ⟨loop.name, path.length⟩ :: (pathIds path).reverse := by
  simp [pathIds, List.zipIdx_append]

theorem meet_concat_left {path path' : List Loop} {x : Loop} (absent : x.name ∉ path'.map Loop.name)
    (deeper : path'.length ≤ path.length) :
    meet (pathIds (path ++ [x])).reverse (pathIds path').reverse =
      meet (pathIds path).reverse (pathIds path').reverse := by
  rcases List.eq_nil_or_concat' path' with rfl | ⟨init, y, rfl⟩
  · simp [pathIds, meet]
  · have differ : x.name ≠ y.name := by
      rintro same
      simp [same] at absent
    have above : init.length < path.length := by
      rw [List.length_append, List.length_singleton] at deeper
      omega
    rw [reverse_pathIds_concat, reverse_pathIds_concat, meet, if_neg differ, if_pos above]

theorem meet_concat_right {path path' : List Loop} {y : Loop} (absent : y.name ∉ path.map Loop.name)
    (deeper : path.length ≤ path'.length + 1) :
    meet (pathIds path).reverse (pathIds (path' ++ [y])).reverse =
      meet (pathIds path).reverse (pathIds path').reverse := by
  rcases List.eq_nil_or_concat' path with rfl | ⟨init, x, rfl⟩
  · simp [pathIds, meet]
  · have differ : x.name ≠ y.name := by
      rintro same
      simp [same] at absent
    have above : ¬path'.length < init.length := by
      rw [List.length_append, List.length_singleton] at deeper
      omega
    rw [reverse_pathIds_concat, reverse_pathIds_concat, meet, if_neg differ, if_neg above]

theorem meet_pathIds {shared p q : List Loop}
    (unique : ((shared ++ (p ++ q)).map Loop.name).Nodup) :
    meet (pathIds (shared ++ p)).reverse (pathIds (shared ++ q)).reverse =
      Sharing.ofCount shared.length := by
  generalize distance : p.length + q.length = k
  induction k generalizing p q with
  | zero =>
    have hp : p = [] := List.length_eq_zero_iff.mp (by omega)
    have hq : q = [] := List.length_eq_zero_iff.mp (by omega)
    subst hp hq
    rw [List.append_nil]
    rcases List.eq_nil_or_concat' shared with rfl | ⟨init, last, rfl⟩
    · simp [pathIds, meet, Sharing.ofCount]
    · simp [reverse_pathIds_concat, meet, Sharing.ofCount]
  | succ k ih =>
    by_cases longer : q.length < p.length
    · rcases List.eq_nil_or_concat' p with rfl | ⟨init, x, rfl⟩
      · simp at longer
      · rw [List.length_append, List.length_singleton] at longer distance
        obtain ⟨absent, rest⟩ := @nodup_middle (shared ++ init) q x (by simpa using unique)
        have outside : x.name ∉ (shared ++ q).map Loop.name := fun mem => absent <| by
          rw [List.append_assoc]
          exact List.map_subset _ ((List.sublist_append_right init q).append_left shared).subset mem
        rw [← List.append_assoc, meet_concat_left outside (by simp; omega)]
        exact ih (by rwa [← List.append_assoc]) (by omega)
    · rcases List.eq_nil_or_concat' q with rfl | ⟨init, y, rfl⟩
      · rw [List.length_nil] at longer distance
        omega
      · rw [List.length_append, List.length_singleton] at longer distance
        obtain ⟨absent, rest⟩ := @nodup_middle (shared ++ (p ++ init)) [] y (by simpa using unique)
        have outside : y.name ∉ (shared ++ p).map Loop.name := fun mem => absent <| by
          rw [List.append_nil]
          exact List.map_subset _ ((List.sublist_append_left p init).append_left shared).subset mem
        rw [← List.append_assoc, meet_concat_right outside (by simp; omega)]
        exact ih (by rwa [List.append_nil] at rest) (by omega)

namespace Nest

open Forest

variable {n : Nest}

theorem Placed.exists_chain? (h : n.Placed) {c : String} (hc : c ∈ n.order) :
    ∃ path, n.loops.chain? c = some path :=
  Forest.exists_chain? (h.listed.mem_iff.mpr hc)

/-- The ways to two computations run together for a while and then have no loop in common. -/
theorem Placed.fork (h : n.Placed) {c d : String} {path path' : List Loop}
    (first : n.loops.chain? c = some path) (second : n.loops.chain? d = some path') :
    ∃ shared p q, path = shared ++ p ∧ path' = shared ++ q ∧
      (shared ++ (p ++ q)).Subperm n.loops.loops := by
  obtain ⟨outer, t, way, -, rfl⟩ := (chain?_eq_some_iff h.computations).mp first
  obtain ⟨outer', t', way', -, rfl⟩ := (chain?_eq_some_iff h.computations).mp second
  exact way.fork way'

theorem Placed.exists_after (h : n.Placed) {c : String} {path outer : List Loop} {t : Tree}
    (chain : n.loops.chain? c = some path) (way : Way n.loops outer t)
    (mem : t.loop.name ∈ path.map Loop.name) : ∃ after, path = outer ++ t.loop :: after := by
  obtain ⟨around, s, leads, -, rfl⟩ := (chain?_eq_some_iff h.computations).mp chain
  rcases leads.through h.names way mem with ⟨rfl, rfl⟩ | ⟨after, rfl, -⟩
  · exact ⟨[], rfl⟩
  · exact ⟨after ++ [s.loop], by simp⟩

theorem Placed.mem_under_iff (h : n.Placed) {c : String} {path outer : List Loop} {t : Tree}
    (chain : n.loops.chain? c = some path) (way : Way n.loops outer t) :
    c ∈ t.under ↔ t.loop.name ∈ path.map Loop.name := by
  rw [Tree.under, List.mem_append, mem_computations_iff]
  constructor
  · rintro (own | ⟨inner, s, below, own⟩)
    · have found := (chain?_eq_some_iff h.computations).mpr ⟨outer, t, way, own, rfl⟩
      rw [chain] at found
      simp [Option.some.inj found]
    · have found := (chain?_eq_some_iff h.computations).mpr ⟨_, s, way.trans below, own, rfl⟩
      rw [chain] at found
      simp [Option.some.inj found]
  · intro mem
    obtain ⟨around, s, leads, own, rfl⟩ := (chain?_eq_some_iff h.computations).mp chain
    rcases leads.through h.names way mem with ⟨rfl, rfl⟩ | ⟨after, rfl, below⟩
    · exact .inl own
    · exact .inr ⟨after, s, below, own⟩

theorem Placed.mem_computationsUnder_iff (h : n.Placed) {id : LoopId} {cs : List String}
    (found : n.computationsUnder id = .ok cs) {c : String} {path : List Loop}
    (chain : n.loops.chain? c = some path) : c ∈ cs ↔ id.name ∈ path.map Loop.name := by
  obtain ⟨outer, t, way, same, -, rfl⟩ := h.computationsUnder_eq_ok_iff.mp found
  rw [sortByRank, mem_sortBy, h.mem_under_iff chain way, same]

/-- Two computations share the loops before the place where their ways part. -/
theorem sharing_eq {c d : String} {shared p q : List Loop}
    (first : n.loops.chain? c = some (shared ++ p)) (second : n.loops.chain? d = some (shared ++ q))
    (unique : ((shared ++ (p ++ q)).map Loop.name).Nodup) :
    n.sharing c d = .ok (Sharing.ofCount shared.length) := by
  simp only [sharing, chain, first, second, meet_pathIds unique]

theorem getElem?_sharings {targets : List String} {added : Nat} {cs : List String}
    {levels : List Sharing} (found : n.sharings targets added cs = .ok levels) :
    levels.length = cs.length - 1 ∧
      ∀ i c d, cs[i]? = some c → cs[i + 1]? = some d → ∃ level, n.sharing c d = .ok level ∧
        levels[i]? = some (if c ∈ targets ∧ d ∈ targets then level.shift added else level) := by
  induction cs generalizing levels with
  | nil => simp_all [sharings]
  | cons x cs ih =>
    cases cs with
    | nil => simp_all [sharings]
    | cons y cs =>
      simp only [sharings] at found
      split at found
      · cases found
      · next level here =>
        split at found
        · cases found
        · next rest behind =>
          obtain ⟨length, each⟩ := ih behind
          cases found
          refine ⟨by simp [length], fun i c d hc hd => ?_⟩
          cases i with
          | zero =>
            simp only [List.getElem?_cons_zero, Option.some.injEq, Nat.zero_add,
              List.getElem?_cons_succ] at hc hd
            subst hc hd
            exact ⟨level, here, by simp⟩
          | succ i => exact each i c d hc hd

end Nest
end LoopNest
