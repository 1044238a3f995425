import LoopNest.Action.Apply
import LoopNest.Proofs.Forest.Path

/-! Edits of a forest: which loops and computations there are afterwards, and how the ways to the
computations change. An edit at a name does nothing to a forest that has no loop of that name, so
the one place of a name can be followed down. -/
namespace LoopNest

/-- A way with loops put before the first loop of a name. -/
def insertBefore (name : String) (new : List Loop) : List Loop → List Loop
  | [] => []
  | loop :: path =>
    if loop.name = name then new ++ loop :: path else loop :: insertBefore name new path

theorem insertBefore_of_notMem {name : String} {new path : List Loop}
    (absent : name ∉ path.map Loop.name) : insertBefore name new path = path := by
  induction path with
  | nil => rfl
  | cons loop path ih =>
    rw [List.map_cons, List.mem_cons, not_or] at absent
    rw [insertBefore, if_neg (Ne.symm absent.1), ih absent.2]

namespace Forest

theorem nodup_names_cons {loop : Loop} {own : List String} {body rest : Forest} :
    (cons loop own body rest).names.Nodup ↔
      loop.name ∉ body.names ∧ loop.name ∉ rest.names ∧ body.names.Nodup ∧ rest.names.Nodup ∧
        body.names.Disjoint rest.names := by
  rw [names_cons, List.nodup_cons, List.nodup_append', List.mem_append, not_or]
  tauto

theorem computations_nested (outer : List Loop) (f : Forest) :
    (nested outer f).computations = f.computations := by
  induction outer with
  | nil => rfl
  | cons loop outer ih =>
    have inner : (nested (loop :: outer) f) = cons loop [] (nested outer f) nil := rfl
    simp [inner, computations, ih]

theorem names_nested (outer : List Loop) (f : Forest) :
    (nested outer f).names = outer.map Loop.name ++ f.names := by
  induction outer with
  | nil => rfl
  | cons loop outer ih =>
    have inner : (nested (loop :: outer) f) = cons loop [] (nested outer f) nil := rfl
    rw [inner, names_cons, ih]
    simp [names, loops]

theorem chain?_nested (outer : List Loop) (f : Forest) (c : String) :
    (nested outer f).chain? c = (f.chain? c).map (outer ++ ·) := by
  induction outer with
  | nil => simp [nested]
  | cons loop outer ih =>
    have inner : (nested (loop :: outer) f) = cons loop [] (nested outer f) nil := rfl
    simp [inner, chain?_cons, ih, Function.comp_def]

theorem chain?_append (f g : Forest) (c : String) :
    (f ++ g).chain? c = (f.chain? c).or (g.chain? c) := by
  induction f with
  | nil => simp
  | cons loop own body rest _ ih =>
    by_cases mem : c ∈ own
    · simp [chain?_cons, mem]
    · simp [chain?_cons, mem, ih, Option.or_assoc]

theorem subtrees_append (f g : Forest) : (f ++ g).subtrees = f.subtrees ++ g.subtrees := by
  induction f with
  | nil => rfl
  | cons loop own body rest _ ih => simp [subtrees, ih]

theorem tops_append (f g : Forest) : (f ++ g).tops = f.tops ++ g.tops := by
  induction f with
  | nil => rfl
  | cons loop own body rest _ ih => rw [cons_append, tops, ih, tops, List.cons_append]

section Map

theorem loops_mapComputations (change : List String → List String) (f : Forest) :
    (f.mapComputations change).loops = f.loops := by
  induction f with
  | nil => rfl
  | cons loop own body rest ihBody ihRest => simp [mapComputations, loops, ihBody, ihRest]

theorem subtrees_mapComputations (change : List String → List String) (f : Forest) :
    (f.mapComputations change).subtrees =
      f.subtrees.map fun t => ⟨t.loop, change t.computations, t.body.mapComputations change⟩ := by
  induction f with
  | nil => rfl
  | cons loop own body rest ihBody ihRest => simp [mapComputations, subtrees, ihBody, ihRest]

theorem tops_mapComputations (change : List String → List String) (f : Forest) :
    (f.mapComputations change).tops = f.tops := by
  induction f with
  | nil => rfl
  | cons loop own body rest _ ih => rw [mapComputations, tops, ih, tops]

theorem Way.mapComputations {f : Forest} {outer : List Loop} {t : Tree} (way : Way f outer t)
    (change : List String → List String) : Way (f.mapComputations change) outer
      ⟨t.loop, change t.computations, t.body.mapComputations change⟩ := by
  induction way with
  | here => exact .here
  | inside _ ih => exact .inside ih
  | beside _ ih => exact .beside ih

theorem computations_mapComputations_perm {change : List String → List String}
    (perm : ∀ own, (change own).Perm own) (f : Forest) :
    (f.mapComputations change).computations.Perm f.computations := by
  induction f with
  | nil => exact .refl _
  | cons loop own body rest ihBody ihRest =>
    simp only [mapComputations, computations]
    exact (perm own).append (ihBody.append ihRest)

theorem mapComputations_eq_self {change : List String → List String} {f : Forest}
    (kept : ∀ t ∈ f.subtrees, change t.computations = t.computations) :
    f.mapComputations change = f := by
  induction f with
  | nil => rfl
  | cons loop own body rest ihBody ihRest =>
    have here := kept ⟨loop, own, body⟩ (by simp [subtrees])
    have inside := ihBody fun t mem => kept t (by simp [subtrees, mem])
    have beside := ihRest fun t mem => kept t (by simp [subtrees, mem])
    rw [mapComputations, here, inside, beside]

theorem chain?_mapComputations {change : List String → List String}
    (perm : ∀ own, (change own).Perm own) (f : Forest) (c : String) :
    (f.mapComputations change).chain? c = f.chain? c := by
  induction f with
  | nil => rfl
  | cons loop own body rest ihBody ihRest =>
    rw [mapComputations, chain?_cons, chain?_cons, ihBody, ihRest]
    simp only [(perm own).mem_iff]

theorem subtrees_mapLoops (change : Loop → Loop) (f : Forest) :
    (f.mapLoops change).subtrees =
      f.subtrees.map fun t => ⟨change t.loop, t.computations, t.body.mapLoops change⟩ := by
  induction f with
  | nil => rfl
  | cons loop own body rest ihBody ihRest => simp [mapLoops, subtrees, ihBody, ihRest]

theorem tops_mapLoops (change : Loop → Loop) (f : Forest) :
    (f.mapLoops change).tops = f.tops.map change := by
  induction f with
  | nil => rfl
  | cons loop own body rest _ ih => rw [mapLoops, tops, ih, tops, List.map_cons]

theorem mapLoops_id (f : Forest) : f.mapLoops id = f := by
  induction f with
  | nil => rfl
  | cons loop own body rest ihBody ihRest => rw [mapLoops, ihBody, ihRest, id]

theorem mapLoops_mapLoops (first second : Loop → Loop) (f : Forest) :
    (f.mapLoops first).mapLoops second = f.mapLoops (second ∘ first) := by
  induction f with
  | nil => rfl
  | cons loop own body rest ihBody ihRest =>
    simp only [mapLoops, ihBody, ihRest, Function.comp_apply]

theorem mapLoops_congr {change change' : Loop → Loop} {f : Forest}
    (same : ∀ loop ∈ f.loops, change loop = change' loop) :
    f.mapLoops change = f.mapLoops change' := by
  induction f with
  | nil => rfl
  | cons loop own body rest ihBody ihRest =>
    simp only [loops, List.mem_cons, List.mem_append] at same
    rw [mapLoops, mapLoops, same loop (.inl rfl), ihBody fun x mem => same x (.inr (.inl mem)),
      ihRest fun x mem => same x (.inr (.inr mem))]

theorem mapLoops_eq_self {change : Loop → Loop} {f : Forest}
    (kept : ∀ loop ∈ f.loops, change loop = loop) : f.mapLoops change = f :=
  (mapLoops_congr kept).trans (mapLoops_id f)

theorem Way.mapLoops {f : Forest} {outer : List Loop} {t : Tree} (way : Way f outer t)
    (change : Loop → Loop) : Way (f.mapLoops change) (outer.map change)
      ⟨change t.loop, t.computations, t.body.mapLoops change⟩ := by
  induction way with
  | here => exact .here
  | inside _ ih => exact .inside ih
  | beside _ ih => exact .beside ih

theorem chain?_mapLoops (change : Loop → Loop) (f : Forest) (c : String) :
    (f.mapLoops change).chain? c = (f.chain? c).map (List.map change) := by
  induction f with
  | nil => rfl
  | cons loop own body rest ihBody ihRest =>
    by_cases mem : c ∈ own
    · simp [mapLoops, chain?_cons, mem]
    · cases hb : body.chain? c <;> simp [mapLoops, chain?_cons, mem, ihBody, ihRest, hb]

theorem map_under_mapLoops (change : Loop → Loop) (f : Forest) :
    (f.mapLoops change).subtrees.map Tree.under = f.subtrees.map Tree.under := by
  simp [subtrees_mapLoops, Tree.under, Function.comp_def]

end Map

section Enclose

variable {name : String} {new : List Loop}

theorem enclose_of_notMem {f : Forest} (absent : name ∉ f.names) : f.enclose name new = f := by
  induction f with
  | nil => rfl
  | cons loop own body rest ihBody ihRest =>
    rw [names_cons, List.mem_cons, List.mem_append, not_or, not_or] at absent
    rw [enclose, if_neg (Ne.symm absent.1), ihBody absent.2.1, ihRest absent.2.2]

theorem computations_enclose (f : Forest) :
    (f.enclose name new).computations = f.computations := by
  induction f with
  | nil => rfl
  | cons loop own body rest ihBody ihRest =>
    by_cases same : loop.name = name
    · simp [enclose, same, computations_nested, computations]
    · simp [enclose, same, computations, ihBody, ihRest]

theorem names_enclose_perm {f : Forest} (unique : f.names.Nodup) (mem : name ∈ f.names) :
    (f.enclose name new).names.Perm (new.map Loop.name ++ f.names) := by
  induction f with
  | nil => simp [names, loops] at mem
  | cons loop own body rest ihBody ihRest =>
    obtain ⟨-, -, uniqueBody, uniqueRest, disjoint⟩ := nodup_names_cons.mp unique
    by_cases same : loop.name = name
    · rw [enclose, if_pos same, names_append, names_nested, names_cons, names_cons]
      simp [names, loops]
    · rw [enclose, if_neg same, names_cons, names_cons]
      rw [names_cons, List.mem_cons, List.mem_append] at mem
      rcases mem with rfl | mem | mem
      · exact absurd rfl same
      · rw [enclose_of_notMem (disjoint mem)]
        have inner := ((ihBody uniqueBody mem).append_right rest.names).cons loop.name
        rw [List.append_assoc] at inner
        exact inner.trans List.perm_middle.symm
      · rw [enclose_of_notMem fun inBody => disjoint inBody mem]
        have behind := ((ihRest uniqueRest mem).append_left body.names).cons loop.name
        have swap := List.perm_append_comm_assoc body.names (new.map Loop.name) rest.names
        exact (behind.trans (swap.cons loop.name)).trans List.perm_middle.symm

theorem mem_map_under_nested (outer : List Loop) {f : Forest}
    (mem : f.computations ∈ f.subtrees.map Tree.under) {cs : List String} :
    cs ∈ (nested outer f).subtrees.map Tree.under ↔ cs ∈ f.subtrees.map Tree.under := by
  induction outer with
  | nil => rfl
  | cons loop outer ih =>
    have inner : nested (loop :: outer) f = cons loop [] (nested outer f) nil := rfl
    rw [inner, subtrees, subtrees, List.append_nil, List.map_cons, List.mem_cons, ih, Tree.under,
      List.nil_append, computations_nested]
    constructor
    · rintro (rfl | among)
      · exact mem
      · exact among
    · exact .inr

theorem mem_map_under_enclose {f : Forest} {cs : List String} :
    cs ∈ (f.enclose name new).subtrees.map Tree.under ↔ cs ∈ f.subtrees.map Tree.under := by
  induction f with
  | nil => rfl
  | cons loop own body rest ihBody ihRest =>
    by_cases same : loop.name = name
    · have whole : (cons loop own body nil).computations ∈
          (cons loop own body nil).subtrees.map Tree.under := by
        simp [subtrees, computations, Tree.under]
      rw [enclose, if_pos same, subtrees_append, List.map_append, List.mem_append,
        mem_map_under_nested new whole]
      simp [subtrees, or_assoc]
    · rw [enclose, if_neg same, subtrees, subtrees, List.map_cons, List.map_cons, List.map_append,
        List.map_append, List.mem_cons, List.mem_cons, List.mem_append, List.mem_append, ihBody,
        ihRest, Tree.under, Tree.under, computations_enclose]

/-- The way to a computation gets the new loops before the loop that they are put around. -/
theorem chain?_enclose {f : Forest} (unique : f.names.Nodup) (c : String) :
    (f.enclose name new).chain? c = (f.chain? c).map (insertBefore name new) := by
  induction f with
  | nil => rfl
  | cons loop own body rest ihBody ihRest =>
    obtain ⟨-, apart, uniqueBody, uniqueRest, disjoint⟩ := nodup_names_cons.mp unique
    have hBody := ihBody uniqueBody
    have hRest := ihRest uniqueRest
    by_cases same : loop.name = name
    · rw [enclose, if_pos same, chain?_append, chain?_nested]
      rw [enclose_of_notMem (same ▸ apart)] at hRest
      rw [hRest]
      by_cases mem : c ∈ own
      · simp [chain?_cons, mem, insertBefore, same]
      · cases hb : body.chain? c <;> simp [chain?_cons, mem, hb, insertBefore, same]
    · by_cases mem : c ∈ own
      · simp [enclose, same, chain?_cons, mem, insertBefore]
      · cases hb : body.chain? c <;>
          simp [enclose, same, chain?_cons, mem, hBody, hRest, hb, insertBefore]

end Enclose

section Move

variable {name : String}

theorem find?_of_notMem {f : Forest} (absent : name ∉ f.names) : f.find? name = none := by
  rw [find?_eq, List.find?_eq_none]
  intro t mem
  have differs : t.loop.name ≠ name := fun same => absent <| by
    rw [← map_name_subtrees]
    exact List.mem_map.mpr ⟨t, mem, same⟩
  simpa using differs

theorem erase_of_notMem {f : Forest} (absent : name ∉ f.names) : f.erase name = f := by
  induction f with
  | nil => rfl
  | cons loop own body rest ihBody ihRest =>
    rw [names_cons, List.mem_cons, List.mem_append, not_or, not_or] at absent
    rw [erase, if_neg (Ne.symm absent.1), ihBody absent.2.1, ihRest absent.2.2]

theorem extend_of_notMem {own : List String} {more f : Forest} (absent : name ∉ f.names) :
    extend name own more f = f := by
  induction f with
  | nil => rfl
  | cons loop inner body rest ihBody ihRest =>
    rw [names_cons, List.mem_cons, List.mem_append, not_or, not_or] at absent
    rw [extend, if_neg (Ne.symm absent.1), ihBody absent.2.1, ihRest absent.2.2]

theorem find?_cons_cases {loop : Loop} {own : List String} {body rest : Forest}
    (unique : (cons loop own body rest).names.Nodup) {t : Tree}
    (found : (cons loop own body rest).find? name = some t) :
    (loop.name = name ∧ t = ⟨loop, own, body⟩) ∨
      (loop.name ≠ name ∧ body.find? name = some t ∧ name ∉ rest.names) ∨
      (loop.name ≠ name ∧ rest.find? name = some t ∧ name ∉ body.names) := by
  obtain ⟨-, -, uniqueBody, uniqueRest, disjoint⟩ := nodup_names_cons.mp unique
  have mem_names : ∀ {f : Forest}, f.find? name = some t → name ∈ f.names := by
    intro f hf
    by_contra absent
    rw [find?_of_notMem absent] at hf
    cases hf
  by_cases same : loop.name = name
  · left
    simpa [find?, same, eq_comm] using found
  · simp only [find?, same, if_false, Option.or_eq_some_iff] at found
    rcases found with inBody | ⟨absent, inRest⟩
    · exact .inr (.inl ⟨same, inBody, disjoint (mem_names inBody)⟩)
    · exact .inr (.inr ⟨same, inRest, fun mem => disjoint mem (mem_names inRest)⟩)

theorem names_erase_perm {f : Forest} (unique : f.names.Nodup) {t : Tree}
    (found : f.find? name = some t) :
    f.names.Perm (name :: (t.body.names ++ (f.erase name).names)) := by
  induction f with
  | nil => simp [find?] at found
  | cons loop own body rest ihBody ihRest =>
    obtain ⟨-, -, uniqueBody, uniqueRest, -⟩ := nodup_names_cons.mp unique
    rw [List.perm_iff_count]
    intro a
    rcases find?_cons_cases unique found with ⟨rfl, rfl⟩ | ⟨differs, inBody, apart⟩ |
      ⟨differs, inRest, apart⟩
    · simp [erase, names_cons]
    · have count := (ihBody uniqueBody inBody).count_eq a
      simp only [erase, differs, if_false, erase_of_notMem apart, names_cons, List.count_cons,
        List.count_append] at count ⊢
      omega
    · have count := (ihRest uniqueRest inRest).count_eq a
      simp only [erase, differs, if_false, erase_of_notMem apart, names_cons, List.count_cons,
        List.count_append] at count ⊢
      omega

theorem computations_erase_perm {f : Forest} (unique : f.names.Nodup) {t : Tree}
    (found : f.find? name = some t) :
    f.computations.Perm (t.under ++ (f.erase name).computations) := by
  induction f with
  | nil => simp [find?] at found
  | cons loop own body rest ihBody ihRest =>
    obtain ⟨-, -, uniqueBody, uniqueRest, -⟩ := nodup_names_cons.mp unique
    rw [List.perm_iff_count]
    intro a
    rcases find?_cons_cases unique found with ⟨rfl, rfl⟩ | ⟨differs, inBody, apart⟩ |
      ⟨differs, inRest, apart⟩
    · simp [erase, computations, Tree.under]
    · have count := (ihBody uniqueBody inBody).count_eq a
      simp only [erase, differs, if_false, erase_of_notMem apart, computations,
        List.count_append] at count ⊢
      omega
    · have count := (ihRest uniqueRest inRest).count_eq a
      simp only [erase, differs, if_false, erase_of_notMem apart, computations,
        List.count_append] at count ⊢
      omega

theorem names_extend_perm {f : Forest} (unique : f.names.Nodup) (mem : name ∈ f.names)
    (more : List String) (added : Forest) :
    (extend name more added f).names.Perm (added.names ++ f.names) := by
  induction f with
  | nil => simp [names, loops] at mem
  | cons loop own body rest ihBody ihRest =>
    obtain ⟨-, -, uniqueBody, uniqueRest, disjoint⟩ := nodup_names_cons.mp unique
    rw [List.perm_iff_count]
    intro a
    rw [names_cons, List.mem_cons, List.mem_append] at mem
    by_cases same : loop.name = name
    · simp only [extend, same, if_true, names_cons, names_append, List.count_cons,
        List.count_append]
      omega
    · rcases mem with rfl | mem | mem
      · exact absurd rfl same
      · have count := (ihBody uniqueBody mem).count_eq a
        simp only [extend, same, if_false, extend_of_notMem (disjoint mem), names_cons,
          List.count_cons, List.count_append] at count ⊢
        omega
      · have count := (ihRest uniqueRest mem).count_eq a
        simp only [extend, same, if_false, extend_of_notMem fun inBody => disjoint inBody mem,
          names_cons, List.count_cons, List.count_append] at count ⊢
        omega

theorem computations_extend_perm {f : Forest} (unique : f.names.Nodup) (mem : name ∈ f.names)
    (more : List String) (added : Forest) :
    (extend name more added f).computations.Perm
      ((more ++ added.computations) ++ f.computations) := by
  induction f with
  | nil => simp [names, loops] at mem
  | cons loop own body rest ihBody ihRest =>
    obtain ⟨-, -, uniqueBody, uniqueRest, disjoint⟩ := nodup_names_cons.mp unique
    rw [List.perm_iff_count]
    intro a
    rw [names_cons, List.mem_cons, List.mem_append] at mem
    by_cases same : loop.name = name
    · simp only [extend, same, if_true, computations, computations_append, List.count_append]
      omega
    · rcases mem with rfl | mem | mem
      · exact absurd rfl same
      · have count := (ihBody uniqueBody mem).count_eq a
        simp only [extend, same, if_false, extend_of_notMem (disjoint mem), computations,
          List.count_append] at count ⊢
        omega
      · have count := (ihRest uniqueRest mem).count_eq a
        simp only [extend, same, if_false, extend_of_notMem fun inBody => disjoint inBody mem,
          computations, List.count_append] at count ⊢
        omega

end Move

end Forest
end LoopNest
