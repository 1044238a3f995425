import LoopNest.Description.Basic
import LoopNest.Proofs.Table

/-! What is found before a description is laid out. The checks of names, parents, orders and chains
end without an error exactly if names and orders differ, parents exist, and the loops around each
computation lead down to it one by one. -/
namespace LoopNest

theorem firstRepeated?_go_eq_none_iff {seen names : List String} :
    firstRepeated?.go seen names = none ↔ names.Nodup ∧ ∀ name ∈ names, name ∉ seen := by
  induction names generalizing seen with
  | nil => simp [firstRepeated?.go]
  | cons name names ih =>
    by_cases old : name ∈ seen
    · simp [firstRepeated?.go, old]
    · simp only [firstRepeated?.go, old, if_false, ih, List.nodup_cons, List.mem_cons]
      grind

theorem firstRepeated?_eq_none_iff {names : List String} :
    firstRepeated? names = none ↔ names.Nodup := by
  simp [firstRepeated?, firstRepeated?_go_eq_none_iff]

namespace Description

/-- Names of loops that lead down loop by loop; the first has the given parent. -/
inductive Leads (d : Description) : Option String → List String → Prop where
  | done {parent} : Leads d parent []
  | down {parent item names} (mem : item ∈ d.loops) (around : item.parent = parent)
    (below : Leads d (some item.name) names) : Leads d parent (item.name :: names)

variable {d : Description}

theorem chainError?_eq_none_iff (unique : d.loopNames.Nodup) {computation : String}
    {parent : Option String} {names : List String} :
    d.chainError? computation parent names = none ↔ d.Leads parent names := by
  induction names generalizing parent with
  | nil => simpa [chainError?] using Leads.done
  | cons name names ih =>
    cases found : d.loops.find? fun item => item.name == name with
    | none =>
      simp only [chainError?, found, reduceCtorEq, false_iff]
      rintro (_ | ⟨mem, -, -⟩)
      simpa using List.find?_eq_none.mp found _ mem
    | some item =>
      obtain ⟨mem, rfl⟩ := (find?_key_eq_some_iff unique).mp found
      simp only [chainError?, found]
      constructor
      · intro ok
        split at ok
        · next around => exact .down mem around (ih.mp ok)
        · cases ok
      · intro leads
        generalize same : item.name :: names = all at leads
        cases leads with
        | done => cases same
        | down mem' around below =>
          obtain ⟨name, rfl⟩ := List.cons.inj same
          rw [List.inj_on_of_nodup_map unique mem mem' name, if_pos around]
          exact ih.mpr below

theorem computationsError?_eq_none_iff {seen : List String} {cs : List ComputationItem} :
    d.computationsError? seen cs = none ↔
      (cs.map ComputationItem.name).Nodup ∧ (∀ c ∈ cs, c.name ∉ seen) ∧
        ∀ c ∈ cs, c.loops ≠ [] ∧ d.chainError? c.name none c.loops = none := by
  induction cs generalizing seen with
  | nil => simp [computationsError?]
  | cons c cs ih =>
    cases chained : d.chainError? c.name none c.loops with
    | some e => simp [computationsError?, chained]
    | none =>
      by_cases empty : c.loops = []
      · simp only [computationsError?, chained]
        simp [empty]
      · by_cases old : c.name ∈ seen
        · simp [computationsError?, chained, empty, old]
        · simp only [computationsError?, chained, List.isEmpty_iff, empty, old, if_false, ih,
            List.map_cons, List.nodup_cons, List.mem_cons, List.mem_map]
          grind

structure Checked (d : Description) : Prop where
  loops : d.loopNames.Nodup
  parents : ∀ item ∈ d.loops, ∀ parent, item.parent = some parent → parent ∈ d.loopNames
  orders : (d.computations.map ComputationItem.order).Nodup
  computations : (d.computations.map ComputationItem.name).Nodup
  chains : ∀ c ∈ d.computations, c.loops ≠ [] ∧ d.Leads none c.loops

theorem parentError?_eq_none_iff {item : LoopItem} :
    d.parentError? item = none ↔ ∀ parent, item.parent = some parent → parent ∈ d.loopNames := by
  cases parent : item.parent <;> simp [parentError?, parent]

theorem ranked_perm (d : Description) : d.ranked.Perm d.computations := sortBy_perm _ _

theorem error?_eq_none_iff : d.error? = none ↔ d.Checked := by
  have order : (if (d.computations.map ComputationItem.order).Nodup then none
      else some (Nest.Error.malformed .sharedOrder)) = none ↔
        (d.computations.map ComputationItem.order).Nodup := by
    split <;> simp [*]
  simp only [error?, Option.or_eq_none_iff, Option.map_eq_none_iff, firstRepeated?_eq_none_iff,
    List.findSome?_eq_none_iff, parentError?_eq_none_iff, order, computationsError?_eq_none_iff,
    (d.ranked_perm.map ComputationItem.name).nodup_iff, d.ranked_perm.mem_iff]
  constructor
  · rintro ⟨loops, parents, orders, computations, -, chains⟩
    exact ⟨loops, parents, orders, computations, fun c mem =>
      ⟨(chains c mem).1, (chainError?_eq_none_iff loops).mp (chains c mem).2⟩⟩
  · rintro ⟨loops, parents, orders, computations, chains⟩
    exact ⟨loops, parents, orders, computations, by simp, fun c mem =>
      ⟨(chains c mem).1, (chainError?_eq_none_iff loops).mpr (chains c mem).2⟩⟩

theorem Leads.mem_loopNames {parent : Option String} {names : List String}
    (leads : d.Leads parent names) {name : String} (mem : name ∈ names) : name ∈ d.loopNames := by
  induction leads with
  | done => cases mem
  | down isLoop _ _ ih =>
    rcases List.mem_cons.mp mem with rfl | mem
    · exact List.mem_map_of_mem isLoop
    · exact ih mem

end Description
end LoopNest
