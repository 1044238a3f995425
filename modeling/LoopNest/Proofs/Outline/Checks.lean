import LoopNest.Proofs.Outline.Paths

/-! The search for faults in any outline whatever. It ends, and the walk in it never looks up a name
that is no loop. It finds no fault exactly if the loops form trees, each computation stands in the
list of the loop given for it, no name but theirs is given a loop, and the ranks are those of the
computations, all different. -/
namespace LoopNest

theorem nodup_eraseDups (l : List Nat) : l.eraseDups.Nodup := by
  induction size : l.length using Nat.strong_induction_on generalizing l with
  | h size ih =>
    subst size
    cases l with
    | nil => exact List.nodup_nil
    | cons a l =>
      have shorter := List.length_filter_le (fun b => !b == a) l
      rw [List.eraseDups_cons, List.nodup_cons]
      exact ⟨by simp [List.mem_eraseDups], ih _ (Nat.lt_succ_of_le shorter) _ rfl⟩

theorem length_eraseDups_eq_iff {l : List Nat} : l.eraseDups.length = l.length ↔ l.Nodup := by
  constructor
  · intro same
    have part := (nodup_eraseDups l).subperm fun _ mem => List.mem_eraseDups.mp mem
    exact (part.perm_of_length_le same.ge).nodup_iff.mp (nodup_eraseDups l)
  · intro nodup
    rw [eraseDups_of_nodup nodup]

namespace Outline

/-- Every computation has a loop that lists it and a rank of its own, and nothing else has a
rank. -/
structure Ranked (o : Outline) : Prop where
  placed : ∀ c, o.computations.contains c = true → ∃ name e, o.innermost.get? c = some name ∧
    o.loops.get? name = some e ∧ c ∈ e.computations
  ranks : ∀ c, o.ranks.contains c = true ↔ o.computations.contains c = true
  distinct : ∀ c d rank, o.ranks.get? c = some rank → o.ranks.get? d = some rank → c = d

/-- What the checks of an outline end with, made in turn: the roots, the walk over the links, the
computations. -/
inductive Validates (o : Outline) : Option Fault → Prop where
  | roots {fault} (root : o.roots.findSome? o.rootFault? = some fault) : Validates o (some fault)
  | links {fault} (roots : o.roots.findSome? o.rootFault? = none)
    (walks : o.Walks [] o.roots.reverse (some fault)) : Validates o (some fault)
  | computations (roots : o.roots.findSome? o.rootFault? = none)
    (walks : o.Walks [] o.roots.reverse none) :
    Validates o <| (o.innermost.entries.findSome? o.placeFault?).or <|
      (o.computations.keys.findSome? o.computationFault?).or o.ranksFault?

variable {o : Outline}

/-- The checks end with the fault that the search finds. -/
theorem validates_fault? (o : Outline) : o.Validates o.fault? := by
  cases root : o.roots.findSome? o.rootFault? with
  | some fault =>
    rw [fault?, root, Option.some_or]
    exact .roots root
  | none =>
    have walks := walks_roots (List.findSome?_eq_none_iff.mp root)
    cases link : o.walkFault? o.loops.entries o.roots.reverse with
    | some fault =>
      rw [fault?, root, Option.none_or, link, Option.some_or]
      exact .links root (link ▸ walks)
    | none =>
      rw [fault?, root, Option.none_or, link, Option.none_or]
      exact .computations root (link ▸ walks)

theorem Validates.eq_fault? {verdict : Option Fault} (validates : o.Validates verdict) :
    verdict = o.fault? := by
  cases validates with
  | roots root => rw [fault?, root, Option.some_or]
  | links roots walks =>
    have link := (walks_roots (List.findSome?_eq_none_iff.mp roots)).unique walks
    rw [fault?, roots, Option.none_or, link, Option.some_or]
  | computations roots walks =>
    have link := (walks_roots (List.findSome?_eq_none_iff.mp roots)).unique walks
    rw [fault?, roots, Option.none_or, link, Option.none_or]

theorem ranksFault?_eq_none_iff (complete : o.computations.keys ⊆ o.ranks.keys) :
    o.ranksFault? = none ↔ o.ranks.keys ⊆ o.computations.keys ∧ o.ranks.values.Nodup := by
  have count : o.ranks.values.length = o.ranks.size := List.length_map _
  have part : o.computations.keys.Subperm o.ranks.keys := o.computations.nodup.subperm complete
  have fits : o.ranksFault? = none ↔
      o.ranks.values.eraseDups.length = o.computations.size ∧
        o.ranks.size = o.computations.size := by
    simp [ranksFault?]
  rw [fits]
  constructor
  · rintro ⟨different, all⟩
    have perm := part.perm_of_length_le (by rw [Table.length_keys, Table.length_keys, all])
    exact ⟨perm.symm.subset, length_eraseDups_eq_iff.mp (by rw [different, count, all])⟩
  · rintro ⟨only, nodup⟩
    have perm := part.antisymm (o.ranks.nodup.subperm only)
    have all : o.ranks.size = o.computations.size := by
      rw [← Table.length_keys, ← Table.length_keys]
      exact perm.length_eq.symm
    exact ⟨by rw [eraseDups_of_nodup nodup, count, all], all⟩

/-- The checks of the computations find no fault exactly if they are placed and ranked, and nothing
else is placed. -/
theorem ranked_iff :
    (o.Ranked ∧ ∀ c, o.innermost.contains c = true → o.computations.contains c = true) ↔
      (∀ placed ∈ o.innermost.entries, o.placeFault? placed = none) ∧
      (∀ c ∈ o.computations.keys, o.computationFault? c = none) ∧ o.ranksFault? = none := by
  constructor
  · rintro ⟨⟨placed, ranks, distinct⟩, only⟩
    refine ⟨?_, ?_, ?_⟩
    · rintro ⟨c, name⟩ mem
      have given := Table.get?_eq_some_iff.mpr mem
      have known := only c (Table.contains_iff_get?.mpr ⟨name, given⟩)
      obtain ⟨name', e, given', found, own⟩ := placed c known
      cases given.symm.trans given'
      exact placeFault?_eq_none_iff.mpr ⟨known, e, found, own⟩
    · intro c mem
      have known := Table.contains_iff.mpr mem
      obtain ⟨name, -, given, -⟩ := placed c known
      exact computationFault?_eq_none_iff.mpr
        ⟨Table.contains_iff_get?.mpr ⟨name, given⟩, (ranks c).mpr known⟩
    · have same (c : String) : c ∈ o.ranks.keys ↔ c ∈ o.computations.keys := by
        rw [← Table.contains_iff, ← Table.contains_iff, ranks]
      exact (ranksFault?_eq_none_iff fun c => (same c).mpr).mpr
        ⟨fun c => (same c).mp, Table.nodup_values_iff.mpr distinct⟩
  · rintro ⟨places, complete, fits⟩
    have some_loop {c : String} (known : o.computations.contains c = true) :=
      computationFault?_eq_none_iff.mp (complete c (Table.contains_iff.mp known))
    have ranked : o.computations.keys ⊆ o.ranks.keys := fun c mem =>
      Table.contains_iff.mp (some_loop (Table.contains_iff.mpr mem)).2
    obtain ⟨only, nodup⟩ := (ranksFault?_eq_none_iff ranked).mp fits
    refine ⟨⟨fun c known => ?_, fun c => ?_, Table.nodup_values_iff.mp nodup⟩, fun c given => ?_⟩
    · obtain ⟨name, given⟩ := Table.contains_iff_get?.mp (some_loop known).1
      obtain ⟨-, e, found, own⟩ :=
        placeFault?_eq_none_iff.mp (places (c, name) (Table.get?_eq_some_iff.mp given))
      exact ⟨name, e, given, found, own⟩
    · rw [Table.contains_iff, Table.contains_iff]
      exact ⟨(only ·), (ranked ·)⟩
    · obtain ⟨name, given⟩ := Table.contains_iff_get?.mp given
      exact (placeFault?_eq_none_iff.mp (places (c, name) (Table.get?_eq_some_iff.mp given))).1

/-- In any outline the checks end, without a look at a name that is no loop, and they find no fault
in just those whose loops form trees, whose computations are placed and ranked, and in which nothing
else is placed. -/
theorem validates_exactly (o : Outline) :
    (∀ verdict, o.Validates verdict ↔ verdict = o.fault?) ∧
      (o.fault? = none ↔ o.Treelike ∧ o.Ranked ∧
        ∀ c, o.innermost.contains c = true → o.computations.contains c = true) := by
  constructor
  · exact fun verdict => ⟨Validates.eq_fault?, fun same => same ▸ o.validates_fault?⟩
  · rw [fault?_eq_none_iff, ranked_iff, treelike_iff, and_assoc]

/-- A circle that no root leads to is never walked. It is found because loops are left over. -/
example :
    let loop : Loop := { name := "i", lower := .concrete 0, upper := .concrete 4 }
    let circle : Outline :=
      { loops := ⟨[("i", ⟨loop, 0, some "i", ["i"], []⟩)], by decide⟩
        roots := [], computations := .empty, ranks := .empty, innermost := .empty }
    circle.fault? = some .unreached := by decide +kernel

end Outline
end LoopNest
