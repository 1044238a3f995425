import Mathlib.Data.List.Flatten
import Mathlib.Data.List.Perm.Subperm
import LoopNest.Proofs.Outline.Load

/-! The walk over the links of an outline, step by step. It takes a name from a stack. A name that
it has seen before is a fault; else the children of the loop are checked and put on the stack. In
any outline whose roots are loops the walk ends without meeting a name that is no loop: what is put
on the stack has been checked before, and each step that goes on takes a loop that has not been
seen. Where it finds no fault it has seen every loop once, and each of them stands in just one of
the lists of roots and children. Conversely, where that holds, and all children fit, it finds no
fault: levels only grow inwards, so there are no circles that the roots do not lead to. -/
namespace LoopNest
namespace Outline

def inner (o : Outline) (name : String) : List String :=
  ((o.loops.get? name).map Entry.children).getD []

/-- What the walk ends with, from the names that it has seen and those that wait on the stack. No
rule looks up a name that is no loop: there the walk would break down. -/
inductive Walks (o : Outline) : List String → List String → Option Fault → Prop where
  | done {seen} : Walks o seen [] (if seen.length = o.loops.size then none else some .unreached)
  | again {seen name waiting} (known : name ∈ seen) :
    Walks o seen (name :: waiting) (some (.reachedTwice name))
  | bad {seen name waiting e fault} (new : name ∉ seen) (found : o.loops.get? name = some e)
    (link : e.children.findSome? (o.childFault? name e) = some fault) :
    Walks o seen (name :: waiting) (some fault)
  | next {seen name waiting e verdict} (new : name ∉ seen) (found : o.loops.get? name = some e)
    (links : e.children.findSome? (o.childFault? name e) = none)
    (others : Walks o (name :: seen) (e.children.reverse ++ waiting) verdict) :
    Walks o seen (name :: waiting) verdict

variable {o : Outline}

theorem inner_of_get? {name : String} {e : Entry} (found : o.loops.get? name = some e) :
    o.inner name = e.children := by
  rw [inner, found]
  rfl

/-- A child is a loop that is not among the children of any other. -/
theorem Linked.parent_of_mem (linked : o.Linked) {name child : String}
    (mem : child ∈ o.inner name) :
    ∃ e c, o.loops.get? name = some e ∧ o.loops.get? child = some c ∧ c.parent = some name ∧
      c.level = e.level + 1 := by
  cases found : o.loops.get? name with
  | none => simp [inner, found] at mem
  | some e =>
    rw [inner_of_get? found] at mem
    obtain ⟨c, inside, parent, level⟩ := childFault?_eq_none_iff.mp (linked name e found child mem)
    exact ⟨e, c, rfl, inside, parent, level⟩

theorem Walks.unique {seen waiting : List String} {verdict verdict' : Option Fault}
    (walks : o.Walks seen waiting verdict) (walks' : o.Walks seen waiting verdict') :
    verdict = verdict' := by
  induction walks with
  | done =>
    cases walks'
    rfl
  | again known =>
    cases walks' with
    | again => rfl
    | bad new => exact absurd known new
    | next new => exact absurd known new
  | bad new found link =>
    cases walks' with
    | again known => exact absurd known new
    | bad _ found' link' =>
      cases found.symm.trans found'
      exact link.symm.trans link'
    | next _ found' links =>
      cases found.symm.trans found'
      cases link.symm.trans links
  | next new found links _ ih =>
    cases walks' with
    | again known => exact absurd known new
    | bad _ found' link =>
      cases found.symm.trans found'
      cases links.symm.trans link
    | next _ found' _ others =>
      cases found.symm.trans found'
      exact ih others

/-- From any stack of loops the walk ends, with the fault that the search finds. -/
theorem walks_walkFault? {seen waiting : List String} {unseen : List (String × Entry)}
    (sub : ∀ x ∈ unseen, x ∈ o.loops.entries)
    (split : (seen ++ unseen.map Prod.fst).Perm o.loops.keys)
    (known : ∀ name ∈ waiting, o.loops.contains name = true) :
    o.Walks seen waiting (o.walkFault? unseen waiting) := by
  have apart := List.nodup_append'.mp (split.nodup_iff.mpr o.loops.nodup)
  have sum : seen.length + unseen.length = o.loops.size := by
    have length := split.length_eq
    rwa [List.length_append, List.length_map, Table.length_keys] at length
  fun_induction walkFault? o unseen waiting generalizing seen with
  | case1 unseen none_left =>
    rw [List.isEmpty_iff.mp none_left, List.length_nil, Nat.add_zero] at sum
    have done := @Walks.done o seen
    rwa [if_pos sum] at done
  | case2 unseen some_left =>
    have done := @Walks.done o seen
    rwa [if_neg fun all => some_left (by simpa [all] using sum)] at done
  | case3 unseen name waiting missing =>
    refine .again ?_
    have key := Table.contains_iff.mp (known name List.mem_cons_self)
    rcases List.mem_append.mp (split.mem_iff.mpr key) with mem | mem
    · exact mem
    · obtain ⟨x, hx, rfl⟩ := List.mem_map.mp mem
      have differs := List.lookup_eq_none_iff.mp missing x hx
      simp at differs
  | case4 unseen name waiting e found fault link =>
    have isUnseen := (keys_eraseP found).mem_iff.mpr List.mem_cons_self
    exact .bad (fun seen => apart.2.2 seen isUnseen) (get?_of_lookup sub found) link
  | case5 unseen name waiting e found links ih =>
    have keys := keys_eraseP found
    have isUnseen := keys.mem_iff.mpr List.mem_cons_self
    refine .next (fun seen => apart.2.2 seen isUnseen) (get?_of_lookup sub found) links ?_
    have split' : (name :: seen ++ (unseen.eraseP fun entry => entry.1 == name).map Prod.fst).Perm
        o.loops.keys := List.perm_middle.symm.trans ((keys.symm.append_left seen).trans split)
    refine ih (fun x hx => sub x (List.mem_of_mem_eraseP hx)) split' ?_ ?_ ?_
    · intro child mem
      rcases List.mem_append.mp mem with mem | mem
      · obtain ⟨c, inside, -⟩ := childFault?_eq_none_iff.mp
          (List.findSome?_eq_none_iff.mp links child (List.mem_reverse.mp mem))
        exact Table.contains_iff_get?.mpr ⟨c, inside⟩
      · exact known child (List.mem_cons_of_mem _ mem)
    · exact List.nodup_append'.mp (split'.nodup_iff.mpr o.loops.nodup)
    · have length := split'.length_eq
      rwa [List.length_append, List.length_map, Table.length_keys] at length

theorem walks_roots (roots : ∀ root ∈ o.roots, o.rootFault? root = none) :
    o.Walks [] o.roots.reverse (o.walkFault? o.loops.entries o.roots.reverse) := by
  refine walks_walkFault? (fun _ mem => mem) (.refl _) fun root mem => ?_
  obtain ⟨e, found, -⟩ := rootFault?_eq_none_iff.mp (roots root (List.mem_reverse.mp mem))
  exact Table.contains_iff_get?.mpr ⟨e, found⟩

/-- The names that the walk has seen, as long as it has found no fault: they are loops, and none
of them has been seen twice. -/
structure Seen (o : Outline) (seen : List String) : Prop where
  nodup : seen.Nodup
  keys : seen ⊆ o.loops.keys

theorem Seen.cons {seen : List String} (h : o.Seen seen) {name : String} {e : Entry}
    (new : name ∉ seen) (found : o.loops.get? name = some e) : o.Seen (name :: seen) :=
  ⟨List.nodup_cons.mpr ⟨new, h.nodup⟩,
    List.cons_subset.mpr ⟨Table.mem_keys_iff.mpr ⟨e, found⟩, h.keys⟩⟩

theorem Seen.perm_of_length {seen : List String} (h : o.Seen seen)
    (all : seen.length = o.loops.size) : seen.Perm o.loops.keys := by
  refine (h.nodup.subperm h.keys).perm_of_length_le ?_
  rw [all, Table.length_keys]

theorem Walks.exists_visited {seen waiting : List String} {verdict : Option Fault}
    (walks : o.Walks seen waiting verdict) (ok : verdict = none) (h : o.Seen seen) :
    ∃ visited, (seen ++ visited).Perm o.loops.keys ∧
      visited.Perm (waiting ++ visited.flatMap o.inner) ∧
      ∀ name e, name ∈ visited → o.loops.get? name = some e →
        ∀ child ∈ e.children, o.childFault? name e child = none := by
  induction walks with
  | @done seen =>
    have all : seen.length = o.loops.size := by
      by_contra some_left
      rw [if_neg some_left] at ok
      cases ok
    exact ⟨[], by simpa using h.perm_of_length all, .refl _, by simp⟩
  | again => cases ok
  | bad => cases ok
  | @next seen name waiting e verdict new found links _ ih =>
    obtain ⟨visited, all, each, fit⟩ := ih ok (h.cons new found)
    refine ⟨name :: visited, List.perm_middle.trans all, ?_, ?_⟩
    · rw [List.flatMap_cons, inner_of_get? found]
      refine List.perm_iff_count.mpr fun a => ?_
      have times := each.count_eq a
      simp only [List.count_append, List.count_cons, List.count_reverse] at times ⊢
      omega
    · intro other e' mem found'
      rcases List.mem_cons.mp mem with rfl | mem
      · cases found.symm.trans found'
        exact List.findSome?_eq_none_iff.mp links
      · exact fit other e' mem found'

section Spanned

variable (linked : o.Linked)
  (spanned : (o.roots ++ o.loops.keys.flatMap o.inner).Perm o.loops.keys)

include linked spanned in
theorem mem_of_closed {names : List String} (roots : o.roots ⊆ names)
    (closed : names.flatMap o.inner ⊆ names) {name : String} {e : Entry}
    (found : o.loops.get? name = some e) : name ∈ names := by
  induction level : e.level using Nat.strong_induction_on generalizing name e with
  | h level ih =>
    subst level
    have key := spanned.mem_iff.mpr (Table.mem_keys_iff.mpr ⟨e, found⟩)
    rcases List.mem_append.mp key with root | child
    · exact roots root
    · obtain ⟨outer, -, inside⟩ := List.mem_flatMap.mp child
      obtain ⟨around, c, isLoop, found', -, deeper⟩ := linked.parent_of_mem inside
      cases found.symm.trans found'
      have known := ih around.level (by omega) isLoop rfl
      exact closed (List.mem_flatMap.mpr ⟨outer, known, inside⟩)

include linked spanned in
theorem Walks.eq_none {seen waiting : List String} {verdict : Option Fault}
    (walks : o.Walks seen waiting verdict) (h : o.Seen seen)
    (front : (seen ++ waiting).Perm (o.roots ++ seen.flatMap o.inner)) : verdict = none := by
  induction walks with
  | @done seen =>
    rw [List.append_nil] at front
    have all : o.loops.keys ⊆ seen := by
      intro name key
      obtain ⟨e, found⟩ := Table.mem_keys_iff.mp key
      refine mem_of_closed linked spanned (fun root mem => ?_) (fun child mem => ?_) found
      · exact front.mem_iff.mpr (List.mem_append_left _ mem)
      · exact front.mem_iff.mpr (List.mem_append_right _ mem)
    have perm : seen.Perm o.loops.keys :=
      (List.perm_ext_iff_of_nodup h.nodup o.loops.nodup).mpr fun _ => ⟨(h.keys ·), (all ·)⟩
    rw [if_pos (perm.length_eq.trans Table.length_keys)]
  | @again seen name waiting known =>
    obtain ⟨part, same, below⟩ := h.nodup.subperm h.keys
    have lists := ((below.flatMap o.inner).append_left o.roots).nodup
      (spanned.nodup_iff.mpr o.loops.nodup)
    have listed := (same.flatMap_right o.inner).append_left o.roots
    have nodup : (seen ++ name :: waiting).Nodup :=
      front.nodup_iff.mpr (listed.nodup_iff.mp lists)
    exact absurd List.mem_cons_self ((List.nodup_append'.mp nodup).2.2 known)
  | @bad seen name waiting e fault new found link =>
    obtain ⟨child, mem, fault⟩ := List.exists_of_findSome?_eq_some link
    cases (linked name e found child mem).symm.trans fault
  | @next seen name waiting e verdict new found links _ ih =>
    refine ih (h.cons new found) ?_
    rw [List.flatMap_cons, inner_of_get? found]
    refine List.perm_iff_count.mpr fun a => ?_
    have times := front.count_eq a
    simp only [List.count_append, List.count_cons, List.count_reverse] at times ⊢
    omega

end Spanned

end Outline
end LoopNest
