import LoopNest.Proofs.Reachable

/-! Only which of two computations executes first matters to the loader. The computations of a
description may be listed in another arrangement and with other numbers for their order. As long as
smaller numbers stay smaller, the ranked computations are the same but for these numbers, and all
that is checked or laid out behind the check for equal numbers is read off the ranked list. Equal
numbers stay equal, so this check finds the same too. -/
namespace LoopNest

def ComputationItem.reorder (relabel : Nat → Nat) (c : ComputationItem) : ComputationItem :=
  { c with order := relabel c.order }

namespace Description

/-- The same loops, and the same computations in any arrangement and with other numbers for their
order: of two computations the one that had the smaller number has the smaller one still. -/
structure Rearranged (relabel : Nat → Nat) (d d' : Description) : Prop where
  loops : d'.loops = d.loops
  computations : d'.computations.Perm (d.computations.map (ComputationItem.reorder relabel))
  increasing : ∀ c ∈ d.computations, ∀ c' ∈ d.computations,
    c.order < c'.order → relabel c.order < relabel c'.order

variable {d d' : Description} {relabel : Nat → Nat}

theorem Rearranged.order_inj (same : d.Rearranged relabel d') {c c' : ComputationItem}
    (hc : c ∈ d.computations) (hc' : c' ∈ d.computations)
    (equal : relabel c.order = relabel c'.order) : c.order = c'.order := by
  rcases Nat.lt_trichotomy c.order c'.order with less | equal' | more
  · exact absurd equal (Nat.ne_of_lt (same.increasing c hc c' hc' less))
  · exact equal'
  · exact absurd equal.symm (Nat.ne_of_lt (same.increasing c' hc' c hc more))

theorem Rearranged.nodup_orders_iff (same : d.Rearranged relabel d') :
    (d'.computations.map ComputationItem.order).Nodup ↔
      (d.computations.map ComputationItem.order).Nodup := by
  have relabelled : (d.computations.map (ComputationItem.reorder relabel)).map
      ComputationItem.order = (d.computations.map ComputationItem.order).map relabel := by
    rw [List.map_map, List.map_map]
    rfl
  rw [(same.computations.map ComputationItem.order).nodup_iff, relabelled]
  refine ⟨List.Nodup.of_map relabel, fun apart => apart.map_on ?_⟩
  intro k hk k' hk' equal
  obtain ⟨c, hc, rfl⟩ := List.mem_map.mp hk
  obtain ⟨c', hc', rfl⟩ := List.mem_map.mp hk'
  exact same.order_inj hc hc' equal

theorem Rearranged.ranked (same : d.Rearranged relabel d')
    (apart : (d.computations.map ComputationItem.order).Nodup) :
    d'.ranked = d.ranked.map (ComputationItem.reorder relabel) := by
  have sorted : d.ranked.Pairwise fun c c' => c.order < c'.order :=
    pairwise_lt_sortBy apart.of_map fun c hc c' hc' => List.inj_on_of_nodup_map apart hc hc'
  have perm : d'.computations.Perm (d.ranked.map (ComputationItem.reorder relabel)) :=
    same.computations.trans (d.ranked_perm.map _).symm
  refine sortBy_eq_of_perm perm (List.pairwise_map.mpr (sorted.imp_of_mem ?_))
  intro c c' hc hc' less
  exact same.increasing c (d.ranked_perm.mem_iff.mp hc) c' (d.ranked_perm.mem_iff.mp hc') less

section Loops

variable (loops : d'.loops = d.loops)
include loops

theorem loopNames_congr : d'.loopNames = d.loopNames := congrArg (List.map LoopItem.name) loops

theorem parentError?_congr : d'.parentError? = d.parentError? := by
  funext item
  simp only [parentError?, loopNames_congr loops]

theorem chainError?_congr (computation : String) (parent : Option String) (names : List String) :
    d'.chainError? computation parent names = d.chainError? computation parent names := by
  induction names generalizing parent with
  | nil => rfl
  | cons name names ih => simp only [chainError?, loops, ih]

/-- The check of computations one after the other does not look at their numbers. -/
theorem computationsError?_reorder (relabel : Nat → Nat) (seen : List String)
    (cs : List ComputationItem) :
    d'.computationsError? seen (cs.map (ComputationItem.reorder relabel)) =
      d.computationsError? seen cs := by
  induction cs generalizing seen with
  | nil => rfl
  | cons c cs ih =>
    simp only [List.map_cons, computationsError?, ComputationItem.reorder,
      chainError?_congr loops, ih]

end Loops

theorem Rearranged.error?_eq (same : d.Rearranged relabel d') : d'.error? = d.error? := by
  by_cases apart : (d.computations.map ComputationItem.order).Nodup
  · simp only [error?, same.loops, loopNames_congr same.loops, parentError?_congr same.loops,
      same.nodup_orders_iff, same.ranked apart, computationsError?_reorder same.loops]
  · simp only [error?, same.loops, loopNames_congr same.loops, parentError?_congr same.loops,
      same.nodup_orders_iff, apart, if_false, Option.some_or]

theorem Rearranged.outline_eq (same : d.Rearranged relabel d')
    (apart : (d.computations.map ComputationItem.order).Nodup) : d'.outline = d.outline := by
  have ranked := same.ranked apart
  have children : d'.childrenOf = d.childrenOf := by
    funext item
    simp only [childrenOf, same.loops]
  have entries : d'.entry = d.entry := by
    funext item
    simp only [entry, children, ranked, List.filter_map, List.map_map]
    rfl
  simp only [outline, same.loops, entries, ranked, List.map_map, List.filterMap_map]
  rfl

/-- A description gives the same nest or the same error when its computations are listed in another
arrangement and with other numbers for their order, as long as smaller numbers stay smaller. -/
theorem loads_rearranged (same : d.Rearranged relabel d') : d'.nest? = d.nest? := by
  cases found : d.error? with
  | some e => simp only [nest?, same.error?_eq, found]
  | none =>
    have apart := (error?_eq_none_iff.mp found).orders
    simp only [nest?, same.error?_eq, found, same.outline_eq apart]

end Description

def blurTurned : Description where
  loops := blur.loops
  computations := [
    { name := "columns", order := 107, loops := ["v", "u"] },
    { name := "rows", order := 100, loops := ["y", "x"] }]

theorem loads_blurTurned : blur.Rearranged (fun k => 7 * k + 100) blurTurned ∧
    blurTurned.nest? = .ok blurNest := by
  have same : blur.Rearranged (fun k => 7 * k + 100) blurTurned :=
    ⟨rfl, .swap _ _ _, by decide⟩
  exact ⟨same, (Description.loads_rearranged same).trans nest?_blur⟩

end LoopNest
