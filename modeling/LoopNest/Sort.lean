/-! Stable sorting by a rank: elements of one rank keep their order, so a list sorted by rank puts all
elements of the last rank behind the others without disturbing them. -/
namespace LoopNest

variable {α : Type}

abbrev sortWith (le : α → α → Bool) (l : List α) : List α := l.mergeSort le

/-- Sorts by a rank; elements of one rank keep their order. -/
def sortBy (rank : α → Nat) : List α → List α :=
  sortWith fun a b => decide (rank a ≤ rank b)

theorem sortBy_perm (rank : α → Nat) (l : List α) : (sortBy rank l).Perm l :=
  List.mergeSort_perm l _

@[simp] theorem mem_sortBy {rank : α → Nat} {l : List α} {a : α} :
    a ∈ sortBy rank l ↔ a ∈ l :=
  List.mem_mergeSort

@[simp] theorem length_sortBy (rank : α → Nat) (l : List α) :
    (sortBy rank l).length = l.length :=
  List.length_mergeSort l

end LoopNest
