import LoopNest.Proofs.Forest.Edit

/-! Ways in a forest in which new loops have been put around a loop. A way by that loop gets the new
loops before it, every other way stays as it is, and what is inside a loop stays inside it. -/
namespace LoopNest

section Insert

variable {name : String} {new : List Loop}

theorem insertBefore_append_left {xs : List Loop} (mem : name ∈ xs.map Loop.name)
    (ys : List Loop) : insertBefore name new (xs ++ ys) = insertBefore name new xs ++ ys := by
  induction xs with
  | nil => simp at mem
  | cons x xs ih =>
    by_cases same : x.name = name
    · simp [insertBefore, same]
    · rw [List.map_cons, List.mem_cons] at mem
      simp only [List.cons_append, insertBefore, same, if_false,
        ih (mem.resolve_left (Ne.symm same))]

theorem insertBefore_append_right {xs : List Loop} (absent : name ∉ xs.map Loop.name)
    (ys : List Loop) : insertBefore name new (xs ++ ys) = xs ++ insertBefore name new ys := by
  induction xs with
  | nil => rfl
  | cons x xs ih =>
    rw [List.map_cons, List.mem_cons, not_or] at absent
    rw [List.cons_append, insertBefore, if_neg (Ne.symm absent.1), ih absent.2, List.cons_append]

theorem insertBefore_perm (new : List Loop) {path : List Loop} (mem : name ∈ path.map Loop.name) :
    (insertBefore name new path).Perm (new ++ path) := by
  induction path with
  | nil => simp at mem
  | cons x path ih =>
    by_cases same : x.name = name
    · rw [insertBefore, if_pos same]
    · rw [List.map_cons, List.mem_cons] at mem
      rw [insertBefore, if_neg same]
      exact ((ih (mem.resolve_left (Ne.symm same))).cons x).trans List.perm_middle.symm

theorem insertBefore_subperm (name : String) (new path : List Loop) :
    (insertBefore name new path).Subperm (new ++ path) := by
  by_cases mem : name ∈ path.map Loop.name
  · exact (insertBefore_perm new mem).subperm
  · rw [insertBefore_of_notMem mem]
    exact (List.sublist_append_right new path).subperm

theorem insertBefore_both_subperm (new : List Loop) {p q : List Loop}
    (apart : ¬(name ∈ p.map Loop.name ∧ name ∈ q.map Loop.name)) :
    (insertBefore name new p ++ insertBefore name new q).Subperm (new ++ (p ++ q)) := by
  by_cases inP : name ∈ p.map Loop.name
  · rw [insertBefore_of_notMem fun inQ => apart ⟨inP, inQ⟩, ← List.append_assoc]
    exact (List.subperm_append_right q).mpr (insertBefore_subperm name new p)
  · rw [insertBefore_of_notMem inP]
    refine ((List.subperm_append_left p).mpr (insertBefore_subperm name new q)).trans ?_
    exact (List.perm_append_comm_assoc p new q).subperm

theorem length_insertBefore (name : String) (new path : List Loop) :
    (insertBefore name new path).length =
      path.length + if name ∈ path.map Loop.name then new.length else 0 := by
  induction path with
  | nil => rfl
  | cons loop path ih =>
    by_cases same : loop.name = name
    · simp [insertBefore, same, Nat.add_comm]
    · simp [insertBefore, same, ih, Ne.symm same]
      omega

theorem getLast?_insertBefore (name : String) (new path : List Loop) :
    (insertBefore name new path).getLast? = path.getLast? := by
  induction path with
  | nil => rfl
  | cons loop path ih =>
    by_cases same : loop.name = name
    · simp [insertBefore, same, List.getLast?_append, List.getLast?_cons]
    · simp [insertBefore, same, List.getLast?_cons, ih]

end Insert

namespace Forest

theorem nested_append (xs ys : List Loop) (f : Forest) :
    nested (xs ++ ys) f = nested xs (nested ys f) := List.foldr_append

theorem Way.nested {f : Forest} {outer : List Loop} {t : Tree} (way : Way f outer t)
    (new : List Loop) : Way (nested new f) (new ++ outer) t := by
  induction new with
  | nil => exact way
  | cons loop new ih => exact .inside ih

variable {f : Forest} {name : String} {new outer : List Loop} {t : Tree}

theorem Way.enclose_row (way : Way f outer t) (unique : f.names.Nodup) {inner : List Loop}
    {s : Tree} (within : Way (Forest.nested new (cons t.loop t.computations t.body nil)) inner s) :
    Way (f.enclose t.loop.name new) (outer ++ inner) s := by
  induction way with
  | @here loop own body rest =>
    rw [enclose, if_pos rfl]
    exact within.append_left rest
  | @inside loop own body rest outer t way ih =>
    obtain ⟨apart, -, uniqueBody, -, -⟩ := nodup_names_cons.mp unique
    have differs : loop.name ≠ t.loop.name := fun same => apart (same ▸ way.mem_names)
    rw [enclose, if_neg differs]
    exact .inside (ih uniqueBody within)
  | @beside loop own body rest outer t way ih =>
    obtain ⟨-, apart, -, uniqueRest, -⟩ := nodup_names_cons.mp unique
    have differs : loop.name ≠ t.loop.name := fun same => apart (same ▸ way.mem_names)
    rw [enclose, if_neg differs]
    exact .beside (ih uniqueRest within)

theorem Way.enclose_self (way : Way f outer t) (unique : f.names.Nodup) (new : List Loop) :
    Way (f.enclose t.loop.name new) (outer ++ new) t := by
  have within := Way.nested (f := cons t.loop t.computations t.body nil) .here new
  rw [List.append_nil] at within
  exact way.enclose_row unique within

theorem Way.enclose_new (way : Way f outer t) (unique : f.names.Nodup) (before after : List Loop)
    (loop : Loop) :
    Way (f.enclose t.loop.name (before ++ loop :: after)) (outer ++ before)
      ⟨loop, [], Forest.nested after (cons t.loop t.computations t.body nil)⟩ := by
  refine way.enclose_row unique ?_
  rw [nested_append]
  have within := Way.nested (t := ⟨loop, [], Forest.nested after _⟩)
    (f := Forest.nested (loop :: after) (cons t.loop t.computations t.body nil)) .here before
  rwa [List.append_nil] at within

/-- Every other loop stands inside the loops that it stood in, and inside the new ones if it stood
inside the loop that they are put around. -/
theorem Way.enclose_other (way : Way f outer t) (unique : f.names.Nodup)
    (differs : t.loop.name ≠ name) (new : List Loop) :
    Way (f.enclose name new) (insertBefore name new outer)
      ⟨t.loop, t.computations, t.body.enclose name new⟩ := by
  induction way with
  | @here loop own body rest =>
    rw [enclose, if_neg differs]
    exact .here
  | @inside loop own body rest outer t way ih =>
    obtain ⟨apart, -, uniqueBody, -, -⟩ := nodup_names_cons.mp unique
    by_cases same : loop.name = name
    · have outside : name ∉ t.body.names := fun mem =>
        apart (same ▸ way.names_body_subset mem)
      rw [enclose, if_pos same, insertBefore, if_pos same, enclose_of_notMem outside]
      exact Way.append_left (Way.nested (.inside way) new) rest
    · rw [enclose, if_neg same, insertBefore, if_neg same]
      exact .inside (ih uniqueBody differs)
  | @beside loop own body rest outer t way ih =>
    obtain ⟨-, apart, -, uniqueRest, -⟩ := nodup_names_cons.mp unique
    by_cases same : loop.name = name
    · have absent : name ∉ rest.names := same ▸ apart
      rw [enclose, if_pos same]
      have kept := ih uniqueRest differs
      rw [enclose_of_notMem absent] at kept
      exact Way.append_right kept _
    · rw [enclose, if_neg same]
      exact .beside (ih uniqueRest differs)

theorem map_name_tops_enclose {first : Loop} {more : List Loop} (unique : f.names.Nodup) :
    (f.enclose name (first :: more)).tops.map Loop.name =
      (f.tops.map Loop.name).map fun top => if top = name then first.name else top := by
  induction f with
  | nil => rfl
  | cons loop own body rest _ ih =>
    obtain ⟨-, apart, -, uniqueRest, -⟩ := nodup_names_cons.mp unique
    have behind := ih uniqueRest
    by_cases same : loop.name = name
    · rw [enclose_of_notMem (same ▸ apart)] at behind
      rw [enclose, if_pos same, tops, List.map_cons, List.map_cons, if_pos same, ← behind]
      rfl
    · simp only [enclose, same, if_false, tops, List.map_cons, behind]

theorem own_enclose {s : Tree} (mem : s ∈ (f.enclose name new).subtrees) :
    s.computations = [] ∨ ∃ t ∈ f.subtrees, s.computations = t.computations := by
  have own_nested (outer : List Loop) {g : Forest} {s : Tree} (mem : s ∈ (nested outer g).subtrees) :
      s.computations = [] ∨ s ∈ g.subtrees := by
    induction outer with
    | nil => exact .inr mem
    | cons loop outer ih =>
      have inner : nested (loop :: outer) g = cons loop [] (nested outer g) nil := rfl
      rw [inner, subtrees, subtrees, List.append_nil, List.mem_cons] at mem
      rcases mem with rfl | mem
      · exact .inl rfl
      · exact ih mem
  induction f with
  | nil => cases mem
  | cons loop own body rest ihBody ihRest =>
    by_cases same : loop.name = name
    · rw [enclose, if_pos same, subtrees_append, List.mem_append] at mem
      rcases mem with mem | mem
      · rcases own_nested new mem with none_own | mem
        · exact .inl none_own
        · simp only [subtrees, List.append_nil, List.mem_cons] at mem
          exact .inr ⟨s, by simp only [subtrees, List.mem_cons, List.mem_append]; tauto, rfl⟩
      · exact .inr ⟨s, by simp [subtrees, mem], rfl⟩
    · rw [enclose, if_neg same] at mem
      simp only [subtrees, List.mem_cons, List.mem_append] at mem
      rcases mem with rfl | mem | mem
      · exact .inr ⟨⟨loop, own, body⟩, by simp [subtrees], rfl⟩
      · rcases ihBody mem with none_own | ⟨t, ht, kept⟩
        · exact .inl none_own
        · exact .inr ⟨t, by simp [subtrees, ht], kept⟩
      · rcases ihRest mem with none_own | ⟨t, ht, kept⟩
        · exact .inl none_own
        · exact .inr ⟨t, by simp [subtrees, ht], kept⟩

end Forest
end LoopNest
