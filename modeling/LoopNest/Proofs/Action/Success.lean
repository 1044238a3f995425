import LoopNest.Proofs.Action.Checked
import LoopNest.Proofs.Reachable

/-! When binding succeeds. On a reachable nest it does exactly if the loops of the action stand for
loops that fit together and the computations given, if any, are some of the nest's. Rendering,
carrying out and renumbering never fail on the way, and no link by name leads nowhere. -/
namespace LoopNest

open Forest

/-- Every link by name leads to a loop of the table. -/
structure Outline.Closed (o : Outline) : Prop where
  roots : ∀ name ∈ o.roots, o.loops.contains name = true
  children : ∀ name e, o.loops.get? name = some e → ∀ child ∈ e.children,
    o.loops.contains child = true
  parents : ∀ name e, o.loops.get? name = some e → ∀ parent, e.parent = some parent →
    o.loops.contains parent = true
  innermost : ∀ c name, o.innermost.get? c = some name → o.loops.contains name = true

namespace Nest

variable {n : Nest}

theorem Placed.contains_of_way (h : n.Placed) {outer : List Loop} {t : Tree}
    (way : Way n.loops outer t) : n.outline.loops.contains t.loop.name = true := by
  rw [Table.contains_iff_get?]
  exact ⟨_, h.get?_outline.mpr ⟨outer, t, way, rfl, rfl⟩⟩

theorem Placed.closed (h : n.Placed) : n.outline.Closed := by
  refine ⟨fun root mem => ?_, fun name e found child mem => ?_,
    fun name e found parent around => ?_, fun c name found => ?_⟩
  · obtain ⟨loop, top, rfl⟩ := List.mem_map.mp mem
    obtain ⟨t, way, rfl⟩ := exists_way_of_mem_tops top
    exact h.contains_of_way way
  · obtain ⟨outer, t, way, -, rfl⟩ := h.get?_outline.mp found
    obtain ⟨loop, top, rfl⟩ := List.mem_map.mp mem
    obtain ⟨s, within, rfl⟩ := exists_way_of_mem_tops top
    exact h.contains_of_way (way.trans within)
  · obtain ⟨outer, t, way, -, rfl⟩ := h.get?_outline.mp found
    rcases List.eq_nil_or_concat' outer with rfl | ⟨init, last, rfl⟩
    · simp [entryAt] at around
    · obtain ⟨s, leads, rfl, -⟩ := way.split
      have same : s.loop.name = parent := by simpa [entryAt] using around
      rw [← same]
      exact h.contains_of_way leads
  · obtain ⟨outer, t, way, -, rfl⟩ := h.get?_innermost.mp found
    exact h.contains_of_way way

end Nest

namespace Action

variable {n : Nest} {a : Action}

theorem check_ne_invalidResult (change : Change) (form : Form) (error : Nest.Error) :
    change.check n ≠ .error (.invalidResult form error) := by
  cases change with
  | interchange a b =>
    simp only [Change.check]
    split
    · simp
    · split <;> simp
  | fusion a b =>
    simp only [Change.check]
    split
    · simp
    · split
      · simp
      · split
        · split <;> simp
        · simp
        · simp
  | _ => simp [Change.check]

theorem findTargets_ne_invalidResult (change : Change) (explicit : Option (List String))
    (form : Form) (error : Nest.Error) :
    findTargets n change explicit ≠ .error (.invalidResult form error) := by
  cases explicit with
  | none => simp [findTargets, Except.mapError_eq_error_iff]
  | some names =>
    intro fails
    simp only [findTargets, Except.bind_eq_error_iff] at fails
    rcases fails with fails | ⟨_, -, fails⟩
    · cases names <;> simp [checkExplicit] at fails
    · split at fails <;> simp at fails

/-- A changed nest is never found faulty. -/
theorem bind_ne_invalidResult (h : n.Placed) (form : Form) (error : Nest.Error) :
    a.bind n ≠ .error (.invalidResult form error) := by
  intro fails
  simp only [bind, bindChange, Except.bind_eq_error_iff, Except.mapError_eq_error_iff,
    Except.mapError_eq_ok_iff, reduceCtorEq, and_false, exists_false, false_or, pure, Except.pure,
    or_false] at fails
  obtain ⟨change, resolved, checked | ⟨_, checked, fails⟩⟩ := fails
  · exact check_ne_invalidResult change form error checked
  rcases fails with missing | ⟨targets, -, rendering, -, finished⟩
  · exact findTargets_ne_invalidResult change a.explicit form error missing
  have refers := (Change.resolve_eq_ok_iff h).mp resolved
  have fits := (Change.check_eq_ok_iff h refers.holds).mp checked
  obtain ⟨m, applied, placed, -⟩ := h.apply refers.holds fits
  rw [applied, placed.finish] at finished
  cases finished

end Action

/-- On a reachable nest an action binds exactly if it fits, where arithmetic wraps round. Where it is
checked, binding stops exactly if the action fits and is a tiling with a tile count that leaves 64
bits, and else has the same result. No binding is stopped by a fault of the changed nest; where the
loops are resolved and pass the check, the program is rendered for all targets found and the change
is carried out; and in the nest before, in the changed nest and in the renumbered one every link
leads to a loop. -/
theorem Reachable.bind_ok_iff {n : Nest} (reached : Reachable n) (a : Action) :
    ((∃ bound, a.bind n = .ok bound) ↔ a.Fits n) ∧
    StopsIf (a.Fits n ∧ ∃ change, a.change.Refers n change ∧ change.Overflows n)
      (a.bindChecked n) (a.bind n) ∧
    (∀ form error, a.bind n ≠ .error (.invalidResult form error)) ∧
    n.outline.Closed ∧
    ∀ change, a.change.resolve n = .ok change → change.check n = .ok () →
      (∀ targets, Action.findTargets n change a.explicit = .ok targets →
        ∃ rendering, change.render n targets = .ok rendering) ∧
      ∃ m, change.apply n = .ok m ∧ m.outline.Closed ∧ m.renumber.outline.Closed := by
  have placed := reached.placed
  refine ⟨Action.bind_ok_iff_fits placed, Action.stopsIf_bindChecked placed a,
    Action.bind_ne_invalidResult placed, placed.closed,
    fun change resolved checked => ?_⟩
  have refers := (Change.resolve_eq_ok_iff placed).mp resolved
  have fits := (Change.check_eq_ok_iff placed refers.holds).mp checked
  obtain ⟨m, applied, left, -⟩ := placed.apply refers.holds fits
  exact ⟨fun targets _ => Change.render_ok placed refers.holds targets,
    m, applied, left.closed, left.renumber.toPlaced.closed⟩

theorem tileRows_fits : tileRows.Fits blurNest :=
  (Reachable.bind_ok_iff reachable_blur tileRows).1.mp ⟨_, bind_tileRows⟩

end LoopNest
