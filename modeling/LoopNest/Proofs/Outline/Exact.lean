import LoopNest.Proofs.Outline.Links
import LoopNest.Proofs.Outline.Walk

/-! The search for faults in the links is exact. It finds none if every child is one level deeper
and names its parent, and every loop stands once where it belongs: among the roots, or among the
children of its parent. -/
namespace LoopNest
namespace Outline

open Forest

/-- Every loop is listed where it belongs, and just once. -/
structure Listed (o : Outline) : Prop where
  root : ∀ name e, o.loops.get? name = some e → e.parent = none → o.roots.count name = 1
  child : ∀ name e parent, o.loops.get? name = some e → e.parent = some parent →
    (o.inner parent).count name = 1

variable {o : Outline}

theorem count_flatMap_of_single {lists : String → List String} {a name : String}
    (single : ∀ b, name ∈ lists b → b = a) (l : List String) :
    (l.flatMap lists).count name = l.count a * (lists a).count name := by
  induction l with
  | nil => simp
  | cons b l ih =>
    rw [List.flatMap_cons, List.count_append, ih, List.count_cons]
    by_cases same : b = a
    · simp [same, Nat.add_mul, Nat.add_comm]
    · have absent : name ∉ lists b := fun mem => same (single b mem)
      simp [same, List.count_eq_zero_of_not_mem absent]

theorem Unfolds.map_name_tops (named : o.Named) {row : List String} {f : Forest}
    (unfolds : o.Unfolds row f) : f.tops.map Loop.name = row := by
  induction unfolds with
  | nil => rfl
  | cons found _ _ _ ih => rw [tops, List.map_cons, ih, named _ _ found]

theorem Unfolds.of_way (named : o.Named) {row : List String} {f : Forest}
    (unfolds : o.Unfolds row f) {outer : List Loop} {t : Tree} (way : Way f outer t) :
    ∃ e, o.loops.get? t.loop.name = some e ∧ e.loop = t.loop ∧
      e.computations = t.computations ∧ o.Unfolds e.children t.body := by
  induction unfolds generalizing outer with
  | nil => cases way
  | @cons name row e body rest found inside beside ihInside ihBeside =>
    rcases way_cons_iff.mp way with ⟨-, rfl⟩ | ⟨inner, -, within⟩ | behind
    · exact ⟨e, named name e found ▸ found, rfl, rfl, inside⟩
    · exact ihInside within
    · exact ihBeside behind

theorem Climbs.unique {name : String} {path path' : List String} (climbs : o.Climbs name path)
    (climbs' : o.Climbs name path') : path = path' := by
  induction climbs generalizing path' with
  | top found outermost =>
    cases climbs' with
    | top => rfl
    | up found' around _ =>
      cases found.symm.trans found'
      cases outermost.symm.trans around
  | up found around _ ih =>
    cases climbs' with
    | top found' outermost =>
      cases found.symm.trans found'
      cases outermost.symm.trans around
    | up found' around' above =>
      cases found.symm.trans found'
      cases around.symm.trans around'
      rw [ih above]

section Walk

variable (roots : ∀ root ∈ o.roots, o.rootFault? root = none)

section Linked

variable (linked : o.Linked) {name : String} {e : Entry} (found : o.loops.get? name = some e)

include linked found in
theorem Linked.notMem_inner (outermost : e.parent = none) :
    name ∉ o.loops.keys.flatMap o.inner := by
  intro mem
  obtain ⟨outer, -, inside⟩ := List.mem_flatMap.mp mem
  obtain ⟨-, c, -, found', around, -⟩ := linked.parent_of_mem inside
  cases found.symm.trans found'
  cases outermost.symm.trans around

include linked found in
theorem Linked.count_children {outer : String} (parent : e.parent = some outer) :
    (o.loops.keys.flatMap o.inner).count name =
      o.loops.keys.count outer * (o.inner outer).count name := by
  refine count_flatMap_of_single (fun other mem => ?_) _
  obtain ⟨-, c, -, found', around, -⟩ := linked.parent_of_mem mem
  cases found.symm.trans found'
  exact Option.some.inj (around.symm.trans parent)

include roots found in
theorem notMem_roots {outer : String} (parent : e.parent = some outer) : name ∉ o.roots := by
  intro mem
  obtain ⟨e', found', outermost, -⟩ := rootFault?_eq_none_iff.mp (roots name mem)
  cases found.symm.trans found'
  cases parent.symm.trans outermost

end Linked

include roots in
/-- Every loop is listed once where it belongs exactly if the lists of roots and children hold
each loop once, all in all. -/
theorem Linked.listed_iff (linked : o.Linked) :
    o.Listed ↔ (o.roots ++ o.loops.keys.flatMap o.inner).Perm o.loops.keys := by
  constructor
  · intro listed
    refine List.perm_iff_count.mpr fun name => ?_
    rw [List.count_append]
    by_cases key : name ∈ o.loops.keys
    · obtain ⟨e, found⟩ := Table.mem_keys_iff.mp key
      rw [Table.count_keys found]
      cases parent : e.parent with
      | none =>
        have noChild := linked.notMem_inner found parent
        rw [listed.root name e found parent, List.count_eq_zero_of_not_mem noChild]
      | some outer =>
        have once := listed.child name e outer found parent
        have inside : name ∈ o.inner outer := List.count_pos_iff.mp (by omega)
        obtain ⟨e', -, around, -⟩ := linked.parent_of_mem inside
        have noRoot := notMem_roots roots found parent
        rw [List.count_eq_zero_of_not_mem noRoot, linked.count_children found parent, once,
          Table.count_keys around]
    · have noRoot : name ∉ o.roots := by
        intro mem
        obtain ⟨e, found, -⟩ := rootFault?_eq_none_iff.mp (roots name mem)
        exact key (Table.mem_keys_iff.mpr ⟨_, found⟩)
      have noChild : name ∉ o.loops.keys.flatMap o.inner := by
        intro mem
        obtain ⟨outer, -, inside⟩ := List.mem_flatMap.mp mem
        obtain ⟨-, c, -, found, -⟩ := linked.parent_of_mem inside
        exact key (Table.mem_keys_iff.mpr ⟨_, found⟩)
      rw [List.count_eq_zero_of_not_mem noRoot, List.count_eq_zero_of_not_mem noChild,
        List.count_eq_zero_of_not_mem key]
  · intro spanned
    have once {name : String} {e : Entry} (found : o.loops.get? name = some e) :
        o.roots.count name + (o.loops.keys.flatMap o.inner).count name = 1 := by
      rw [← List.count_append, spanned.count_eq, Table.count_keys found]
    refine ⟨fun name e found outermost => ?_, fun name e outer found parent => ?_⟩
    · have total := once found
      rwa [List.count_eq_zero_of_not_mem (linked.notMem_inner found outermost)] at total
    · have total := once found
      rw [List.count_eq_zero_of_not_mem (notMem_roots roots found parent), Nat.zero_add,
        linked.count_children found parent] at total
      exact Nat.eq_one_of_mul_eq_one_left total

include roots in
/-- The walk over the links finds no fault exactly if all links fit and every loop is listed
once. -/
theorem walkFault?_eq_none_iff :
    o.walkFault? o.loops.entries o.roots.reverse = none ↔ o.Linked ∧ o.Listed := by
  have walks := walks_roots roots
  have start : o.Seen [] := ⟨List.nodup_nil, List.nil_subset _⟩
  constructor
  · intro ok
    obtain ⟨visited, all, each, fit⟩ := walks.exists_visited ok start
    have linked : o.Linked := fun name e found =>
      fit name e (all.mem_iff.mpr (Table.mem_keys_iff.mpr ⟨_, found⟩)) found
    refine ⟨linked, (linked.listed_iff roots).mpr ?_⟩
    have lists := (List.reverse_perm o.roots).append (all.flatMap_right o.inner)
    exact lists.symm.trans (each.symm.trans all)
  · rintro ⟨linked, listed⟩
    refine walks.eq_none linked ((linked.listed_iff roots).mp listed) start ?_
    simp [List.reverse_perm]

end Walk

section Climbs

variable (named : o.Named) (roots : ∀ root ∈ o.roots, o.rootFault? root = none)
  (linked : o.Linked)

include named roots linked in
theorem Unfolds.climbs {f : Forest} (unfolds : o.Unfolds o.roots f) {outer : List Loop} {t : Tree}
    (way : Way f outer t) : o.Climbs t.loop.name ((outer ++ [t.loop]).map Loop.name) := by
  induction outer using List.reverseRecOn generalizing t with
  | nil =>
    have root : t.loop.name ∈ o.roots := by
      rw [← unfolds.map_name_tops named]
      exact List.mem_map_of_mem way.mem_tops
    obtain ⟨e, found, outermost, -⟩ := rootFault?_eq_none_iff.mp (roots _ root)
    exact .top found outermost
  | append_singleton outer last ih =>
    obtain ⟨s, leads, rfl, within⟩ := way.split
    obtain ⟨e, around, -, -, inside⟩ := unfolds.of_way named leads
    have child : t.loop.name ∈ e.children := by
      rw [← inside.map_name_tops named]
      exact List.mem_map_of_mem within.mem_tops
    obtain ⟨c, found, parent, -⟩ := childFault?_eq_none_iff.mp (linked _ e around _ child)
    rw [List.map_append]
    exact .up found parent (ih leads)

end Climbs

end Outline
end LoopNest
