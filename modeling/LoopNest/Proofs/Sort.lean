import Mathlib.Data.List.Sort
import Mathlib.Data.List.Nodup
import LoopNest.Sort

/-! Sorting by a rank puts elements in the order of their ranks; a list whose ranks all differ has
only one such arrangement. The rank of a name is most often its place in a list without
repetition. -/
namespace LoopNest

variable {α : Type}

theorem pairwise_sortBy (rank : α → Nat) (l : List α) :
    (sortBy rank l).Pairwise fun a b => rank a ≤ rank b := by
  have sorted : (sortBy rank l).Pairwise fun a b => decide (rank a ≤ rank b) = true :=
    List.pairwise_mergeSort (fun a b c => by simpa using Nat.le_trans)
      (fun a b => by simpa using Nat.le_total _ _) l
  exact sorted.imp of_decide_eq_true

theorem sortBy_eq_self {rank : α → Nat} {l : List α}
    (sorted : l.Pairwise fun a b => rank a ≤ rank b) : sortBy rank l = l :=
  List.mergeSort_of_pairwise (sorted.imp decide_eq_true)

theorem sublist_sortBy {rank : α → Nat} {l l' : List α} (part : l.Sublist l')
    (sorted : l.Pairwise fun a b => rank a ≤ rank b) : l.Sublist (sortBy rank l') :=
  List.sublist_mergeSort (fun a b c => by simpa using Nat.le_trans)
    (fun a b => by simpa using Nat.le_total _ _) (sorted.imp decide_eq_true) part

theorem eq_of_rank_eq {rank : α → Nat} {l : List α}
    (sorted : l.Pairwise fun a b => rank a < rank b) {a b : α} (ha : a ∈ l) (hb : b ∈ l)
    (same : rank a = rank b) : a = b := by
  have apart : (l.map rank).Nodup := List.pairwise_map.mpr (sorted.imp Nat.ne_of_lt)
  exact List.inj_on_of_nodup_map apart ha hb same

theorem exists_sortBy_eq_cons {l : List α} (nonempty : l ≠ []) (rank : α → Nat) :
    ∃ first rest, sortBy rank l = first :: rest ∧ first ∈ l := by
  have some_left : 0 < (sortBy rank l).length :=
    length_sortBy rank l ▸ List.length_pos_iff.mpr nonempty
  obtain ⟨first, rest, sorted⟩ := List.exists_cons_of_length_pos some_left
  exact ⟨first, rest, sorted, mem_sortBy.mp (sorted ▸ List.mem_cons_self)⟩

/-- The one arrangement of a list in which the ranks increase is what sorting gives. -/
theorem sortBy_eq_of_perm {rank : α → Nat} {l l' : List α} (perm : l.Perm l')
    (sorted : l'.Pairwise fun a b => rank a < rank b) : sortBy rank l = l' := by
  have hp : (sortBy rank l).Perm l' := (sortBy_perm rank l).trans perm
  refine List.Perm.eq_of_pairwise ?_ (pairwise_sortBy rank l) (sorted.imp Nat.le_of_lt) hp
  intro a b ha hb hab hba
  exact eq_of_rank_eq sorted (hp.mem_iff.mp ha) hb (Nat.le_antisymm hab hba)

theorem pairwise_lt_sortBy {rank : α → Nat} {l : List α} (nodup : l.Nodup)
    (injective : ∀ a ∈ l, ∀ b ∈ l, rank a = rank b → a = b) :
    (sortBy rank l).Pairwise fun a b => rank a < rank b := by
  have hp := sortBy_perm rank l
  have apart : (sortBy rank l).Pairwise fun a b => a ≠ b := hp.nodup_iff.mpr nodup
  refine ((pairwise_sortBy rank l).and apart).imp_of_mem ?_
  intro a b ha hb hab
  refine Nat.lt_of_le_of_ne hab.1 fun same => hab.2 ?_
  exact injective a (hp.mem_iff.mp ha) b (hp.mem_iff.mp hb) same

theorem pairwise_idxOf {order : List String} (nodup : order.Nodup) :
    order.Pairwise fun c d => order.idxOf c < order.idxOf d := by
  refine List.pairwise_iff_getElem.mpr fun i j hi hj hij => ?_
  rw [nodup.idxOf_getElem, nodup.idxOf_getElem]
  exact hij

theorem idxOf_injective {order : List String} {c d : String} (hc : c ∈ order)
    (same : order.idxOf c = order.idxOf d) : c = d :=
  (List.idxOf_inj hc).mp same

theorem sortBy_idxOf {order l : List String} (nodup : order.Nodup) (perm : l.Perm order) :
    sortBy (fun c => order.idxOf c) l = order :=
  sortBy_eq_of_perm perm (pairwise_idxOf nodup)

theorem pairwise_sortBy_idxOf {order l : List String} (nodup : l.Nodup)
    (known : ∀ c ∈ l, c ∈ order) :
    (sortBy (fun c => order.idxOf c) l).Pairwise fun c d => order.idxOf c < order.idxOf d :=
  pairwise_lt_sortBy nodup fun c hc _ _ same => idxOf_injective (known c hc) same

/-- What stands by increasing places in a list is part of the list. -/
theorem sublist_of_pairwise_idxOf {order l : List String} (nodup : order.Nodup)
    (known : ∀ c ∈ l, c ∈ order)
    (sorted : l.Pairwise fun c d => order.idxOf c < order.idxOf d) : l.Sublist order := by
  have part : (order.filter fun c => c ∈ l).Sublist order := List.filter_sublist
  have perm : l.Perm (order.filter fun c => c ∈ l) := by
    have differ : l.Nodup := sorted.imp fun {c d} less same => by simp [same] at less
    refine (List.perm_ext_iff_of_nodup differ (part.nodup nodup)).mpr fun c => ?_
    simp only [List.mem_filter, decide_eq_true_eq]
    exact ⟨fun mem => ⟨known c mem, mem⟩, And.right⟩
  have same : l = order.filter fun c => c ∈ l := by
    calc l = sortBy (fun c => order.idxOf c) l := (sortBy_eq_self (sorted.imp Nat.le_of_lt)).symm
      _ = order.filter fun c => c ∈ l :=
        sortBy_eq_of_perm perm ((pairwise_idxOf nodup).sublist part)
  rw [same]
  exact part

end LoopNest
