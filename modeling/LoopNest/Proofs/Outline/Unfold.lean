import LoopNest.Nest.Outline
import LoopNest.Proofs.Sort
import LoopNest.Proofs.Table
import LoopNest.Proofs.Forest.Path

/-! Unfolding an outline: names are replaced by what the table holds for them. The walk over the
links of an outline ends without a fault exactly if the names on its stack unfold into a forest
that has each loop not seen yet once, and all links fit. -/
namespace LoopNest

namespace Outline

open Forest

/-- A row of names unfolds into the forest that the table's entries make of it. -/
inductive Unfolds (o : Outline) : List String → Forest → Prop where
  | nil : Unfolds o [] .nil
  | cons {name names e body rest} (found : o.loops.get? name = some e)
    (inside : Unfolds o e.children body) (beside : Unfolds o names rest) :
    Unfolds o (name :: names) (.cons e.loop e.computations body rest)

def Named (o : Outline) : Prop := ∀ name e, o.loops.get? name = some e → e.loop.name = name

/-- Every child of a loop is a loop one level deeper that names it as its parent. -/
def Linked (o : Outline) : Prop :=
  ∀ name e, o.loops.get? name = some e → ∀ child ∈ e.children, o.childFault? name e child = none

def own (o : Outline) (name : String) : List String :=
  ((o.loops.get? name).map Entry.computations).getD []

variable {o : Outline}

theorem unfolds_append_iff {xs ys : List String} {f : Forest} :
    o.Unfolds (xs ++ ys) f ↔ ∃ g h, o.Unfolds xs g ∧ o.Unfolds ys h ∧ f = g ++ h := by
  induction xs generalizing f with
  | nil =>
    constructor
    · intro unfolds
      exact ⟨.nil, f, .nil, unfolds, rfl⟩
    · rintro ⟨g, h, hg, hh, rfl⟩
      cases hg
      exact hh
  | cons x xs ih =>
    constructor
    · rintro (_ | ⟨found, inside, beside⟩)
      obtain ⟨g, h, hg, hh, rfl⟩ := ih.mp beside
      exact ⟨_, h, .cons found inside hg, hh, rfl⟩
    · rintro ⟨g, h, hg, hh, rfl⟩
      rcases hg with _ | ⟨found, inside, beside⟩
      exact .cons found inside (ih.mpr ⟨_, h, beside, hh, rfl⟩)

theorem Unfolds.reverse {xs : List String} {f : Forest} (unfolds : o.Unfolds xs.reverse f) :
    ∃ g, o.Unfolds xs g ∧ g.names.Perm f.names := by
  induction xs generalizing f with
  | nil => exact ⟨f, unfolds, .refl _⟩
  | cons x xs ih =>
    rw [List.reverse_cons] at unfolds
    obtain ⟨g, h, hg, hh, rfl⟩ := unfolds_append_iff.mp unfolds
    obtain ⟨g', hg', perm⟩ := ih hg
    refine ⟨h ++ g', unfolds_append_iff.mpr ⟨h, g', hh, hg', rfl⟩, ?_⟩
    rw [names_append, names_append]
    exact (perm.append_left h.names).trans List.perm_append_comm

theorem keys_eraseP {unseen : List (String × Entry)} {name : String} {e : Entry}
    (found : unseen.lookup name = some e) :
    (unseen.map Prod.fst).Perm
      (name :: (unseen.eraseP fun entry => entry.1 == name).map Prod.fst) := by
  have erased : (unseen.eraseP fun entry => entry.1 == name).map Prod.fst =
      (unseen.map Prod.fst).erase name := by
    rw [List.erase_eq_eraseP', List.eraseP_map]
    rfl
  rw [erased]
  refine List.perm_cons_erase ?_
  obtain ⟨before, after, rfl, -⟩ := List.lookup_eq_some_iff.mp found
  simp

theorem get?_of_lookup {unseen : List (String × Entry)} (sub : ∀ x ∈ unseen, x ∈ o.loops.entries)
    {name : String} {e : Entry} (found : unseen.lookup name = some e) :
    o.loops.get? name = some e := by
  obtain ⟨before, after, rfl, -⟩ := List.lookup_eq_some_iff.mp found
  exact Table.get?_eq_some_iff.mpr (sub _ (by simp))

/-- Where the walk finds no fault, its stack unfolds into a forest of the loops not seen yet. -/
theorem exists_unfolds_of_walkFault? (named : o.Named) {unseen : List (String × Entry)}
    {waiting : List String} (sub : ∀ x ∈ unseen, x ∈ o.loops.entries)
    (ok : o.walkFault? unseen waiting = none) :
    ∃ f, o.Unfolds waiting f ∧ f.names.Perm (unseen.map Prod.fst) := by
  fun_induction walkFault? o unseen waiting with
  | case1 unseen none_left =>
    rw [List.isEmpty_iff.mp none_left]
    exact ⟨.nil, .nil, .refl _⟩
  | case2 unseen some_left => cases ok
  | case3 unseen name waiting missing => cases ok
  | case4 unseen name waiting e found fault bad => cases ok
  | case5 unseen name waiting e found links ih =>
    have sub' : ∀ x ∈ unseen.eraseP fun entry => entry.1 == name, x ∈ o.loops.entries :=
      fun x hx => sub x (List.mem_of_mem_eraseP hx)
    obtain ⟨f, unfolds, perm⟩ := ih sub' ok
    obtain ⟨g, rest, hg, hrest, rfl⟩ := unfolds_append_iff.mp unfolds
    obtain ⟨body, hbody, same⟩ := hg.reverse
    have entry := get?_of_lookup sub found
    refine ⟨_, .cons entry hbody hrest, ?_⟩
    rw [names_cons, named name e entry]
    rw [names_append] at perm
    have whole := ((same.append_right rest.names).trans perm).cons name
    exact whole.trans (keys_eraseP found).symm

theorem walkFault?_eq_none (named : o.Named) (linked : o.Linked)
    {unseen : List (String × Entry)} {waiting : List String} {f : Forest}
    (sub : ∀ x ∈ unseen, x ∈ o.loops.entries) (unfolds : o.Unfolds waiting f)
    (perm : f.names.Perm (unseen.map Prod.fst)) : o.walkFault? unseen waiting = none := by
  fun_induction walkFault? o unseen waiting generalizing f with
  | case1 unseen none_left => rfl
  | case2 unseen some_left =>
    cases unfolds
    have empty : unseen.map Prod.fst = [] := perm.nil_eq.symm
    simp [List.map_eq_nil_iff.mp empty] at some_left
  | case3 unseen name waiting missing =>
    rcases unfolds with _ | ⟨found, inside, beside⟩
    have mem : name ∈ unseen.map Prod.fst := by
      refine perm.mem_iff.mp ?_
      rw [names_cons, named name _ found]
      exact List.mem_cons_self
    obtain ⟨x, hx, rfl⟩ := List.mem_map.mp mem
    have differs := List.lookup_eq_none_iff.mp missing x hx
    simp at differs
  | case4 unseen name waiting e found fault bad =>
    obtain ⟨child, hchild, hfault⟩ := List.exists_of_findSome?_eq_some bad
    rw [linked name e (get?_of_lookup sub found) child hchild] at hfault
    cases hfault
  | case5 unseen name waiting e found links ih =>
    rcases unfolds with _ | ⟨entry, inside, beside⟩
    rw [get?_of_lookup sub found] at entry
    cases entry
    obtain ⟨g, hg, same⟩ :=
      @Unfolds.reverse o e.children.reverse _ (by rwa [List.reverse_reverse])
    refine ih (fun x hx => sub x (List.mem_of_mem_eraseP hx))
      (unfolds_append_iff.mpr ⟨g, _, hg, beside, rfl⟩) ?_
    rw [names_cons, named name e (get?_of_lookup sub found)] at perm
    have tail := (perm.trans (keys_eraseP found)).cons_inv
    rw [names_append]
    exact (same.append_right _).trans tail

/-- Unfolding to a depth that no forest of that size exceeds gives the forest itself. -/
theorem Unfolds.unfold_eq {names : List String} {f : Forest} (unfolds : o.Unfolds names f)
    {depth : Nat} (deep : f.size ≤ depth) : o.unfold depth names = f := by
  induction unfolds generalizing depth with
  | nil => cases depth <;> rfl
  | @cons name names e body rest found inside beside ihInside ihBeside =>
    cases depth with
    | zero => simp [size] at deep
    | succ depth =>
      simp only [size] at deep
      have hbody := ihInside (show body.size ≤ depth by omega)
      have hrest := ihBeside (show rest.size ≤ depth + 1 by omega)
      simp only [unfold] at hrest ⊢
      simp only [List.foldr_cons, found, hbody, hrest]

theorem Unfolds.computations_eq (named : o.Named) {names : List String} {f : Forest}
    (unfolds : o.Unfolds names f) : f.computations = f.names.flatMap o.own := by
  induction unfolds with
  | nil => rfl
  | @cons name names e body rest found inside beside ihInside ihBeside =>
    have first : o.own e.loop.name = e.computations := by
      rw [named name e found, own, found]
      rfl
    rw [names_cons, List.flatMap_cons, List.flatMap_append, first, ← ihInside, ← ihBeside]
    rfl

theorem Unfolds.own_eq (named : o.Named) {names : List String} {f : Forest}
    (unfolds : o.Unfolds names f) {t : Tree} (mem : t ∈ f.subtrees) :
    o.own t.loop.name = t.computations := by
  induction unfolds with
  | nil => simp [subtrees] at mem
  | @cons name names e body rest found inside beside ihInside ihBeside =>
    simp only [subtrees, List.mem_cons, List.mem_append] at mem
    rcases mem with rfl | mem | mem
    · rw [named name e found, own, found]
      rfl
    · exact ihInside mem
    · exact ihBeside mem

end Outline
end LoopNest
