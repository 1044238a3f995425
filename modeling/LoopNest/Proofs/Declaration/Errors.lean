import Mathlib.Data.List.Induction
import Mathlib.Data.List.Nodup
import LoopNest.Declaration

/-! What is found before declarations are laid out. The checks end without an error exactly if every
loop has a name of its own and stands behind the one around it, and every computation has a name of
its own and a loop that is put down. -/
namespace LoopNest

def LoopDeclaration.Fits (known : List String) (l : LoopDeclaration) : Prop :=
  l.name ∉ known ∧ ∀ parent, l.parent = some parent → parent ∈ known

theorem LoopDeclaration.Fits.congr {known known' : List String} {l : LoopDeclaration}
    (same : ∀ name, name ∈ known ↔ name ∈ known') : l.Fits known ↔ l.Fits known' := by
  simp only [Fits, same]

namespace Declaration

/-- Loops put down one by one, each with a new name and behind the one around it. -/
inductive InOrder : List LoopDeclaration → Prop where
  | nil : InOrder []
  | concat {ls l} (before : InOrder ls) (fits : l.Fits (ls.map LoopDeclaration.name)) :
    InOrder (ls ++ [l])

variable {ds : List Declaration} {ls : List LoopDeclaration} {l : LoopDeclaration}

theorem inOrder_concat_iff :
    InOrder (ls ++ [l]) ↔ InOrder ls ∧ l.Fits (ls.map LoopDeclaration.name) := by
  refine ⟨fun ordered => ?_, fun ⟨before, fits⟩ => .concat before fits⟩
  generalize same : ls ++ [l] = all at ordered
  cases ordered with
  | nil => simp at same
  | concat before fits =>
    obtain ⟨rfl, rfl⟩ := List.append_singleton_inj.mp same
    exact ⟨before, fits⟩

theorem InOrder.nodup (ordered : InOrder ls) : (ls.map LoopDeclaration.name).Nodup := by
  induction ordered with
  | nil => exact List.nodup_nil
  | @concat ls l _ fits ih =>
    rw [List.map_append]
    exact List.nodup_append_comm.mp (List.nodup_cons.mpr ⟨fits.1, ih⟩)

theorem InOrder.parent_mem (ordered : InOrder ls) (mem : l ∈ ls) {parent : String}
    (around : l.parent = some parent) : parent ∈ ls.map LoopDeclaration.name := by
  induction ordered with
  | nil => cases mem
  | @concat ls last _ fits ih =>
    rw [List.map_append]
    rcases List.mem_append.mp mem with earlier | here
    · exact List.mem_append_left _ (ih earlier)
    · cases List.mem_singleton.mp here
      exact List.mem_append_left _ (fits.2 parent around)

theorem loopsError?_cons_of_fits {known : List String} (fits : l.Fits known) :
    loopsError? known (l :: ls) = loopsError? (l.name :: known) ls := by
  cases parent : l.parent with
  | none => simp only [loopsError?, fits.1, parent, if_false]
  | some outer => simp only [loopsError?, fits.1, parent, fits.2 outer parent, if_false, if_true]

theorem loopsError?_cons_eq_none_iff {known : List String} :
    loopsError? known (l :: ls) = none ↔ l.Fits known ∧ loopsError? (l.name :: known) ls = none := by
  by_cases fits : l.Fits known
  · rw [loopsError?_cons_of_fits fits]
    exact (and_iff_right fits).symm
  · refine iff_of_false (fun ok => fits ?_) fun both => fits both.1
    simp only [loopsError?] at ok
    split at ok
    · cases ok
    · next fresh =>
      refine ⟨fresh, fun outer parent => ?_⟩
      simp only [parent] at ok
      by_contra unknown
      simp [unknown] at ok

theorem loopsError?_concat_eq_none_iff {known : List String} :
    loopsError? known (ls ++ [l]) = none ↔
      loopsError? known ls = none ∧ l.Fits (ls.map LoopDeclaration.name ++ known) := by
  induction ls generalizing known with
  | nil =>
    rw [List.nil_append, loopsError?_cons_eq_none_iff]
    simp [loopsError?]
  | cons first ls ih =>
    have names : l.Fits (ls.map LoopDeclaration.name ++ first.name :: known) ↔
        l.Fits ((first :: ls).map LoopDeclaration.name ++ known) :=
      LoopDeclaration.Fits.congr fun name => by simp [or_left_comm]
    rw [List.cons_append, loopsError?_cons_eq_none_iff, ih, loopsError?_cons_eq_none_iff, names,
      and_assoc]

theorem loopsError?_eq_none_iff : loopsError? [] ls = none ↔ InOrder ls := by
  induction ls using List.reverseRecOn with
  | nil => exact iff_of_true rfl .nil
  | append_singleton ls l ih =>
    rw [loopsError?_concat_eq_none_iff, List.append_nil, ih, inOrder_concat_iff]

theorem computationsError?_eq_none_iff {known seen : List String}
    {cs : List ComputationDeclaration} :
    computationsError? known seen cs = none ↔
      (cs.map ComputationDeclaration.name).Nodup ∧ (∀ c ∈ cs, c.name ∉ seen) ∧
        ∀ c ∈ cs, c.loop ∈ known := by
  induction cs generalizing seen with
  | nil => simp [computationsError?]
  | cons c cs ih =>
    by_cases declared : c.loop ∈ known
    · by_cases old : c.name ∈ seen
      · simp [computationsError?, declared, old]
      · simp only [computationsError?, declared, old, not_true, if_false, ih, List.map_cons,
          List.nodup_cons, List.mem_cons, List.mem_map]
        grind
    · simp [computationsError?, declared]

/-- What the checks before the outline see to. -/
structure Checked (ds : List Declaration) : Prop where
  loops : InOrder (loops ds)
  computations : ((computations ds).map ComputationDeclaration.name).Nodup
  placed : ∀ c ∈ Declaration.computations ds,
    c.loop ∈ (Declaration.loops ds).map LoopDeclaration.name

theorem error?_eq_none_iff : error? ds = none ↔ Checked ds := by
  rw [error?, Option.or_eq_none_iff, loopsError?_eq_none_iff, computationsError?_eq_none_iff]
  constructor
  · rintro ⟨loops, computations, -, placed⟩
    exact ⟨loops, computations, placed⟩
  · rintro ⟨loops, computations, placed⟩
    exact ⟨loops, computations, by simp, placed⟩

end Declaration
end LoopNest
