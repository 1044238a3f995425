import LoopNest.Action.Basic
import LoopNest.Proofs.Action.Apply
import LoopNest.Proofs.Nest.Renumber
import LoopNest.Proofs.Outline.Regular

/-! Binding of actions. Once the loops of a change are resolved and fit together, nothing that
follows can fail: the targets are found, the program is rendered, the change is carried out and the
renumbered nest has no fault. -/
namespace LoopNest

open Forest

variable {n : Nest}

namespace Nest

theorem Placed.computationsUnder_ok (h : n.Placed) {id : LoopId} (holds : n.Holds id) :
    ∃ cs, n.computationsUnder id = .ok cs := by
  obtain ⟨outer, t, way, same, deep⟩ := holds
  exact ⟨_, h.computationsUnder_eq_ok_iff.mpr ⟨outer, t, way, same, deep, rfl⟩⟩

theorem Placed.sharing_ok (h : n.Placed) {c d : String} (hc : c ∈ n.order) (hd : d ∈ n.order) :
    ∃ level, n.sharing c d = .ok level := by
  obtain ⟨outer, t, -, -, chain⟩ := h.chain_ok hc
  obtain ⟨outer', t', -, -, chain'⟩ := h.chain_ok hd
  simp only [Nest.sharing, chain, chain']
  exact ⟨_, rfl⟩

theorem Placed.sharings_ok (h : n.Placed) (targets : List String) (added : Nat)
    {cs : List String} (known : ∀ c ∈ cs, c ∈ n.order) :
    ∃ levels, n.sharings targets added cs = .ok levels := by
  induction cs with
  | nil => exact ⟨[], rfl⟩
  | cons c cs ih =>
    cases cs with
    | nil => exact ⟨[], rfl⟩
    | cons d cs =>
      obtain ⟨level, here⟩ := h.sharing_ok (known c (by simp)) (known d (by simp))
      obtain ⟨levels, rest⟩ := ih fun x mem => known x (List.mem_cons_of_mem _ mem)
      simp only [Nest.sharings, here, rest]
      exact ⟨_, rfl⟩

end Nest

namespace Change

theorem outermost?_mem {ids : List LoopId} {id : LoopId} (found : outermost? ids = some id) :
    id ∈ ids := by
  induction ids generalizing id with
  | nil => cases found
  | cons a rest ih =>
    simp only [outermost?] at found
    split at found
    · next b hb =>
      split at found
      · rw [← Option.some.inj found]
        exact List.mem_cons_of_mem _ (ih hb)
      · rw [← Option.some.inj found]
        exact List.mem_cons_self
    · rw [← Option.some.inj found]
      exact List.mem_cons_self

theorem outermost?_eq_none_iff {ids : List LoopId} : outermost? ids = none ↔ ids = [] := by
  cases ids with
  | nil => exact ⟨fun _ => rfl, fun _ => rfl⟩
  | cons a rest =>
    simp only [outermost?]
    split
    · split <;> simp
    · simp

theorem exists_outermost? (c : Change) : ∃ id, outermost? c.loops = some id := by
  refine Option.ne_none_iff_exists'.mp fun none_left => ?_
  have empty := outermost?_eq_none_iff.mp none_left
  cases c <;> cases empty

/-- All but a fusion are about the computations under their outermost loop. -/
theorem targets_of_outermost {c : Change} (apart : c.form ≠ .fusion) {id : LoopId}
    (least : outermost? c.loops = some id) : c.targets n = n.computationsUnder id := by
  cases c with
  | fusion a b => exact absurd rfl apart
  | _ => simp only [targets, least]

theorem targets_ok (h : n.Placed) {c : Change} (holds : ∀ id ∈ c.loops, n.Holds id) :
    ∃ targets, c.targets n = .ok targets := by
  by_cases fuses : c.form = .fusion
  · cases c with
    | fusion a b =>
      obtain ⟨underA, hA⟩ := h.computationsUnder_ok (holds a (by simp [loops]))
      obtain ⟨underB, hB⟩ := h.computationsUnder_ok (holds b (by simp [loops]))
      simp only [targets, hA, hB]
      exact ⟨_, rfl⟩
    | _ => cases fuses
  · obtain ⟨id, least⟩ := exists_outermost? c
    rw [targets_of_outermost fuses least]
    exact h.computationsUnder_ok (holds id (outermost?_mem least))

theorem adjustSharings_ok (h : n.Placed) {c : Change} (holds : ∀ id ∈ c.loops, n.Holds id)
    (order : List String) (levels : List Sharing) :
    ∃ adjusted, c.adjustSharings n order levels = .ok adjusted := by
  cases c with
  | fusion a b =>
    obtain ⟨underA, hA⟩ := h.computationsUnder_ok (holds a (by simp [loops]))
    obtain ⟨underB, hB⟩ := h.computationsUnder_ok (holds b (by simp [loops]))
    simp only [adjustSharings, hA, hB]
    exact ⟨_, rfl⟩
  | _ => exact ⟨levels, rfl⟩

theorem levels_ok (h : n.Placed) {c : Change} (holds : ∀ id ∈ c.loops, n.Holds id)
    (targets : List String) : ∃ levels, c.levels n targets = .ok levels := by
  obtain ⟨plain, hp⟩ := h.sharings_ok targets c.form.addedLoops fun _ mem => mem
  obtain ⟨adjusted, ha⟩ := adjustSharings_ok h holds n.order plain
  exact ⟨adjusted, Except.bind_eq_ok_iff.mpr ⟨plain, hp, ha⟩⟩

theorem render_ok (h : n.Placed) {c : Change} (holds : ∀ id ∈ c.loops, n.Holds id)
    (targets : List String) : ∃ rendering, c.render n targets = .ok rendering := by
  have text : ∃ text, c.orderText n targets = .ok text := by
    simp only [orderText]
    split
    · exact ⟨"", rfl⟩
    · obtain ⟨levels, found⟩ := levels_ok h holds targets
      rw [found]
      exact ⟨_, rfl⟩
  obtain ⟨text, found⟩ := text
  simp only [render, found]
  exact ⟨_, rfl⟩

end Change

namespace Action

theorem findTargets_some_eq_ok_iff {c : Change} {names targets : List String} :
    findTargets n c (some names) = .ok targets ↔
      names ≠ [] ∧ (∀ name ∈ names, name ∈ n.order) ∧ targets = names := by
  have known (name : String) : (n.computation? name).isNone = true ↔ name ∉ n.order := by
    simp [Nest.computation?, Nest.order]
  cases names with
  | nil =>
    simp only [findTargets, checkExplicit, Except.bind_eq_ok_iff]
    simp
  | cons name names =>
    simp only [findTargets, checkExplicit, Except.bind_eq_ok_iff]
    cases found : (name :: names).find? fun name => (n.computation? name).isNone with
    | some unknown =>
      have absent := (known unknown).mp (by simpa using List.find?_some found)
      have mem := List.mem_of_find?_eq_some found
      simp only [reduceCtorEq, and_false, exists_false, false_iff]
      exact fun fits => absent (fits.2.1 unknown mem)
    | none =>
      have present : ∀ x ∈ name :: names, x ∈ n.order := by
        intro x mem
        have unknown := List.find?_eq_none.mp found x mem
        rwa [known, not_not] at unknown
      constructor
      · rintro ⟨_, -, taken⟩
        exact ⟨List.cons_ne_nil _ _, present, (Except.ok.inj taken).symm⟩
      · rintro ⟨-, -, rfl⟩
        exact ⟨(), trivial, rfl⟩

/-- Targets are found if those given, where there are some given, are computations. -/
theorem findTargets_ok_iff (h : n.Placed) {c : Change} (holds : ∀ id ∈ c.loops, n.Holds id)
    {explicit : Option (List String)} :
    (∃ targets, findTargets n c explicit = .ok targets) ↔
      ∀ names, explicit = some names → names ≠ [] ∧ ∀ name ∈ names, name ∈ n.order := by
  cases explicit with
  | none =>
    obtain ⟨targets, found⟩ := Change.targets_ok h holds
    simp only [findTargets, Except.mapError_eq_ok_iff, found]
    simp
  | some names =>
    simp only [findTargets_some_eq_ok_iff, Option.some.injEq]
    constructor
    · rintro ⟨targets, given, known, -⟩ _ rfl
      exact ⟨given, known⟩
    · intro fits
      exact ⟨names, (fits names rfl).1, (fits names rfl).2, rfl⟩

end Action

theorem Nest.Placed.finish (h : n.Placed) (form : Form) :
    Action.finish form (.ok n) = .ok n.renumber := by
  simp only [Action.finish, h.renumber.fault?_eq_none]

namespace Action

/-- What binding does, step by step: the loops are resolved and fit together, the targets are
found, the program is rendered from the nest, and the changed nest is renumbered. -/
theorem bind_eq_ok_iff (h : n.Placed) {a bound : Action} :
    a.bind n = .ok bound ↔
      ∃ change targets rendering m, a.change.Refers n change ∧ change.Compatible n ∧
        findTargets n change a.explicit = .ok targets ∧
        change.render n targets = .ok rendering ∧ change.apply n = .ok m ∧
        bound = { a with change, binding := some ⟨m.renumber, targets, rendering⟩ } := by
  simp only [bind, bindChange, Except.bind_eq_ok_iff, Except.pure_eq_ok_iff,
    Except.mapError_eq_ok_iff]
  constructor
  · rintro ⟨-, ⟨change, resolved, _, checked, targets, found, rendering, rendered, nest, finished,
      rfl⟩, rfl⟩
    have refers := (Change.resolve_eq_ok_iff h).mp resolved
    have fits := (Change.check_eq_ok_iff h refers.holds).mp checked
    obtain ⟨m, applied, placed, -⟩ := h.apply refers.holds fits
    rw [applied, placed.finish] at finished
    cases finished
    exact ⟨change, targets, rendering, m, refers, fits, found, rendered, applied, rfl⟩
  · rintro ⟨change, targets, rendering, m, refers, fits, found, rendered, applied, rfl⟩
    obtain ⟨m', applied', placed, -⟩ := h.apply refers.holds fits
    rw [applied] at applied'
    cases applied'
    refine ⟨_, ⟨change, (Change.resolve_eq_ok_iff h).mpr refers, (),
      (Change.check_eq_ok_iff h refers.holds).mpr fits, targets, found, rendering, rendered, _, ?_,
      rfl⟩, rfl⟩
    rw [applied]
    exact placed.finish _

/-- The loops of an action stand for loops of the nest that fit together; if computations are
given, there are some and all are the nest's. -/
def Fits (n : Nest) (a : Action) : Prop :=
  (∃ change, a.change.Refers n change ∧ change.Compatible n) ∧
    ∀ names, a.explicit = some names → names ≠ [] ∧ ∀ name ∈ names, name ∈ n.order

theorem bind_ok_iff_fits (h : n.Placed) {a : Action} : (∃ bound, a.bind n = .ok bound) ↔ a.Fits n := by
  constructor
  · rintro ⟨bound, binds⟩
    obtain ⟨change, targets, -, -, refers, fits, found, -, -, -⟩ := (bind_eq_ok_iff h).mp binds
    exact ⟨⟨change, refers, fits⟩, (findTargets_ok_iff h refers.holds).mp ⟨targets, found⟩⟩
  · rintro ⟨⟨change, refers, fits⟩, given⟩
    obtain ⟨targets, found⟩ := (findTargets_ok_iff h refers.holds).mpr given
    obtain ⟨rendering, rendered⟩ := Change.render_ok h refers.holds targets
    obtain ⟨m, applied, -, -⟩ := h.apply refers.holds fits
    exact ⟨_, (bind_eq_ok_iff h).mpr
      ⟨change, targets, rendering, m, refers, fits, found, rendered, applied, rfl⟩⟩

end Action

end LoopNest
