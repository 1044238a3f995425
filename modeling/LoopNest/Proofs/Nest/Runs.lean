import Mathlib.Data.List.Basic
import LoopNest.Nest.Renumber
import LoopNest.Proofs.Sort

/-! Runs: lists whose elements stand one directly behind the other in an order, in whatever
arrangement. Two runs without a common element do not interleave, so runs can be put one behind the
other by the rank of the first element of each. -/
namespace LoopNest

/-- What stands in the order between two elements of the list belongs to the list. -/
def Run (order l : List String) : Prop :=
  ∀ x ∈ l, ∀ z ∈ l, ∀ y ∈ order, order.idxOf x ≤ order.idxOf y → order.idxOf y ≤ order.idxOf z →
    y ∈ l

variable {order : List String}

theorem Run.congr {l l' : List String} (run : Run order l) (same : ∀ c, c ∈ l ↔ c ∈ l') :
    Run order l' := by
  intro x hx z hz y hy below above
  exact (same y).mp (run x ((same x).mpr hx) z ((same z).mpr hz) y hy below above)

theorem run_singleton {c : String} (mem : c ∈ order) : Run order [c] := by
  intro x hx z hz y hy below above
  rw [List.mem_singleton] at hx hz ⊢
  subst hx hz
  exact idxOf_injective hy (Nat.le_antisymm above below)

theorem run_of_part {l : List String} (unique : order.Nodup) (part : l <:+: order) :
    Run order l := by
  obtain ⟨before, after, rfl⟩ := part
  have ranks := pairwise_idxOf unique
  rw [List.pairwise_append, List.pairwise_append] at ranks
  obtain ⟨⟨-, -, first⟩, -, last⟩ := ranks
  intro x hx z hz y hy below above
  rw [List.mem_append, List.mem_append] at hy
  rcases hy with (hy | hy) | hy
  · exact absurd (first y hy x hx) (Nat.not_lt.mpr below)
  · exact hy
  · exact absurd (last z (List.mem_append_right before hz) y hy) (Nat.not_lt.mpr above)

theorem Run.before_or_after {l l' : List String} (run : Run order l) (run' : Run order l')
    (known : ∀ c ∈ l, c ∈ order) (known' : ∀ c ∈ l', c ∈ order) (disjoint : l.Disjoint l') :
    (∀ x ∈ l, ∀ y ∈ l', order.idxOf x < order.idxOf y) ∨
      (∀ x ∈ l, ∀ y ∈ l', order.idxOf y < order.idxOf x) := by
  by_contra interleaved
  rw [not_or] at interleaved
  push Not at interleaved
  obtain ⟨⟨x, hx, y, hy, early⟩, x', hx', y', hy', late⟩ := interleaved
  rcases Nat.le_total (order.idxOf x) (order.idxOf y') with low | high
  · exact disjoint hx (run' y hy y' hy' x (known x hx) early low)
  · exact disjoint (run x' hx' x hx y' (known' y' hy') late high) hy'

theorem Run.map_idxOf {l : List String} (unique : order.Nodup) (run : Run order l)
    (known : ∀ c ∈ l, c ∈ order) (sorted : l.Pairwise fun c d => order.idxOf c < order.idxOf d) :
    ∃ start, l.map (fun c => order.idxOf c) = List.range' start l.length := by
  induction l with
  | nil => exact ⟨0, rfl⟩
  | cons x l ih =>
    obtain ⟨first, rest⟩ := List.pairwise_cons.mp sorted
    have tail : Run order l := by
      intro a ha c hc b hb below above
      rcases List.mem_cons.mp (run a (List.mem_cons_of_mem x ha) c (List.mem_cons_of_mem x hc) b hb
        below above) with rfl | mem
      · exact absurd (first a ha) (Nat.not_lt.mpr below)
      · exact mem
    obtain ⟨start, ranks⟩ := ih tail (fun c mem => known c (List.mem_cons_of_mem x mem)) rest
    cases l with
    | nil => exact ⟨order.idxOf x, rfl⟩
    | cons y l =>
      rw [List.map_cons, List.length_cons, List.range'_succ, List.cons.injEq] at ranks
      have next : order.idxOf y = order.idxOf x + 1 := by
        have after := first y List.mem_cons_self
        have bound := List.idxOf_lt_length_iff.mpr (known y (by simp))
        by_contra gap
        have short : order.idxOf x + 1 < order.length := by omega
        have rank : order.idxOf order[order.idxOf x + 1] = order.idxOf x + 1 :=
          unique.idxOf_getElem _ short
        have mem := run x (by simp) y (by simp) order[order.idxOf x + 1] (List.getElem_mem short)
          (by omega) (by omega)
        rcases List.mem_cons.mp mem with same | mem
        · rw [same] at rank
          omega
        · rcases List.mem_cons.mp mem with same | mem
          · rw [same] at rank
            omega
          · have behind := (List.pairwise_cons.mp rest).1 _ mem
            omega
      refine ⟨order.idxOf x, ?_⟩
      rw [List.map_cons, List.map_cons, ranks.2, List.length_cons, List.length_cons,
        List.range'_succ, List.range'_succ, ← ranks.1, next]

theorem run_of_map_idxOf {l : List String} {start : Nat}
    (ranks : l.map (fun c => order.idxOf c) = List.range' start l.length) : Run order l := by
  intro x hx z hz y hy below above
  have inside {c : String} : c ∈ l → start ≤ order.idxOf c ∧ order.idxOf c < start + l.length := by
    intro mem
    have among : order.idxOf c ∈ l.map fun c => order.idxOf c := List.mem_map_of_mem mem
    rw [ranks, List.mem_range'_1] at among
    exact among
  have among : order.idxOf y ∈ l.map fun c => order.idxOf c := by
    rw [ranks, List.mem_range'_1]
    exact ⟨(inside hx).1.trans below, Nat.lt_of_le_of_lt above (inside hz).2⟩
  obtain ⟨c, mem, same⟩ := List.mem_map.mp among
  rwa [← idxOf_injective hy same.symm] at mem

section Blocks

theorem exists_leastRank {rank : String → Nat} {last : Nat} {l : List String}
    (nonempty : l ≠ []) (bounded : ∀ c ∈ l, rank c ≤ last) :
    ∃ c ∈ l, leastRank rank last l = rank c := by
  induction l with
  | nil => exact absurd rfl nonempty
  | cons d l ih =>
    have first : leastRank rank last (d :: l) = min (rank d) (leastRank rank last l) := rfl
    rcases Nat.le_total (rank d) (leastRank rank last l) with least | less
    · exact ⟨d, List.mem_cons_self, first.trans (Nat.min_eq_left least)⟩
    · by_cases empty : l = []
      · subst empty
        exact ⟨d, List.mem_cons_self, first.trans (Nat.min_eq_left (bounded d (by simp)))⟩
      · obtain ⟨c, mem, same⟩ := ih empty fun c mem => bounded c (List.mem_cons_of_mem d mem)
        exact ⟨c, List.mem_cons_of_mem d mem, first.trans ((Nat.min_eq_right less).trans same)⟩

/-- A block of the walk: a run by increasing rank, with the rank of its first element. -/
structure Block (order : List String) (b : Nat × List String) : Prop where
  sorted : b.2.Pairwise fun c d => order.idxOf c < order.idxOf d
  least : b.1 = leastRank (fun c => order.idxOf c) order.length b.2
  run : Run order b.2
  known : ∀ c ∈ b.2, c ∈ order

theorem block_singleton {c : String} (mem : c ∈ order) : Block order (order.idxOf c, [c]) := by
  refine ⟨List.pairwise_singleton _ _, ?_, run_singleton mem, fun d hd => ?_⟩
  · exact (Nat.min_eq_left (List.idxOf_le_length)).symm
  · rwa [List.mem_singleton.mp hd]

theorem Block.before {b b' : Nat × List String} (block : Block order b) (block' : Block order b')
    (disjoint : b.2.Disjoint b'.2) (first : b.1 ≤ b'.1) :
    ∀ x ∈ b.2, ∀ y ∈ b'.2, order.idxOf x < order.idxOf y := by
  rcases block.run.before_or_after block'.run block.known block'.known disjoint with before | after
  · exact before
  · intro x hx y hy
    have bounded (l : List String) : ∀ c ∈ l, order.idxOf c ≤ order.length := fun c _ =>
      List.idxOf_le_length
    obtain ⟨x', hx', leastX⟩ := exists_leastRank (List.ne_nil_of_mem hx) (bounded b.2)
    obtain ⟨y', hy', leastY⟩ := exists_leastRank (List.ne_nil_of_mem hy) (bounded b'.2)
    rw [block.least, block'.least, leastX, leastY] at first
    exact absurd (after x' hx' y' hy') (Nat.not_lt.mpr first)

/-- Joined blocks without common elements are sorted by rank. -/
theorem pairwise_joinBlocks {blocks : List (Nat × List String)}
    (each : ∀ b ∈ blocks, Block order b) (once : (blocks.flatMap Prod.snd).Nodup) :
    (joinBlocks blocks).Pairwise fun c d => order.idxOf c < order.idxOf d := by
  have perm := sortBy_perm Prod.fst blocks
  have once' : ((sortBy Prod.fst blocks).flatMap Prod.snd).Nodup :=
    (perm.flatMap_right Prod.snd).nodup_iff.mpr once
  rw [joinBlocks, List.pairwise_flatMap]
  refine ⟨fun b mem => (each b (perm.mem_iff.mp mem)).sorted, ?_⟩
  refine ((pairwise_sortBy Prod.fst blocks).and (List.nodup_flatMap.mp once').2).imp_of_mem ?_
  intro b b' hb hb' both
  exact (each b (perm.mem_iff.mp hb)).before (each b' (perm.mem_iff.mp hb')) both.2 both.1

end Blocks

end LoopNest
