import LoopNest.Proofs.Action.Bind

/-! Binding again. The loops of a bound action are loops of the nest, so they stand for themselves,
and binding the action to the same nest once more gives the same action. A row of actions, each
bound to the nest that the one before it leaves, can therefore be bound again from the first nest
on. -/
namespace LoopNest

variable {n : Nest}

namespace Change

theorem refers_self {c : Change} (holds : ∀ id ∈ c.loops, n.Holds id) : c.Refers n c :=
  ⟨rfl, List.forall₂_same.mpr fun id mem => .inl ⟨holds id mem, rfl⟩, rfl⟩

theorem legality_of_render {c : Change} {targets : List String} {rendering : Rendering}
    (rendered : c.render n targets = .ok rendering) : rendering.legality = rendering.program := by
  simp only [render, Except.bind_eq_ok_iff, Except.pure_eq_ok_iff] at rendered
  obtain ⟨text, -, rfl⟩ := rendered
  rfl

end Change

namespace Action

/-- A bound action binds to its nest again, and is as it was. -/
theorem bind_bound (h : n.Placed) {a bound : Action} (binds : a.bind n = .ok bound) :
    bound.bind n = .ok bound := by
  obtain ⟨change, targets, rendering, m, refers, fits, found, rendered, applied, rfl⟩ :=
    (bind_eq_ok_iff h).mp binds
  exact (bind_eq_ok_iff h).mpr ⟨change, targets, rendering, m, Change.refers_self refers.holds,
    fits, found, rendered, applied, rfl⟩

theorem change_of_bind (h : n.Placed) {a bound : Action} (binds : a.bind n = .ok bound)
    (holds : ∀ id ∈ a.change.loops, n.Holds id) : bound.change = a.change := by
  obtain ⟨change, -, -, -, refers, -, -, -, -, rfl⟩ := (bind_eq_ok_iff h).mp binds
  have resolved := (Change.resolve_eq_ok_iff h).mpr (Change.refers_self holds)
  exact Except.ok.inj (((Change.resolve_eq_ok_iff h).mpr refers).symm.trans resolved)

theorem compatible_of_bind (h : n.Placed) {a bound : Action} (binds : a.bind n = .ok bound)
    (holds : ∀ id ∈ a.change.loops, n.Holds id) :
    a.change.Compatible n ∧
      ∀ names, a.explicit = some names → names ≠ [] ∧ ∀ name ∈ names, name ∈ n.order := by
  have same := change_of_bind h binds holds
  obtain ⟨change, targets, _, _, refers, fits, found, -, -, rfl⟩ := (bind_eq_ok_iff h).mp binds
  exact ⟨same ▸ fits, (findTargets_ok_iff h refers.holds).mp ⟨targets, found⟩⟩

theorem given_of_perm {m : Nest} {explicit : Option (List String)} (order : m.order.Perm n.order)
    (given : ∀ names, explicit = some names → names ≠ [] ∧ ∀ name ∈ names, name ∈ n.order) :
    ∀ names, explicit = some names → names ≠ [] ∧ ∀ name ∈ names, name ∈ m.order :=
  fun names isGiven =>
    have ⟨nonempty, known⟩ := given names isGiven
    ⟨nonempty, fun name mem => order.mem_iff.mpr (known name mem)⟩

/-- An action whose loops are loops of the nest binds if they fit together and the computations
given, if any, are the nest's. -/
theorem exists_bind (h : n.Placed) {a : Action} (holds : ∀ id ∈ a.change.loops, n.Holds id)
    (fits : a.change.Compatible n)
    (given : ∀ names, a.explicit = some names → names ≠ [] ∧ ∀ name ∈ names, name ∈ n.order)
    {m : Nest} (applied : a.change.apply n = .ok m) :
    ∃ targets rendering, findTargets n a.change a.explicit = .ok targets ∧
      a.bind n = .ok { a with binding := some ⟨m.renumber, targets, rendering⟩ } := by
  obtain ⟨targets, found⟩ := (findTargets_ok_iff h holds).mpr given
  obtain ⟨rendering, rendered⟩ := Change.render_ok h holds targets
  refine ⟨targets, rendering, found, (bind_eq_ok_iff h).mpr ⟨a.change, targets, rendering, m, ?_⟩⟩
  exact ⟨Change.refers_self holds, fits, found, rendered, applied, rfl⟩

/-- Binds actions one after the other: the first to the nest, each other to the nest that the one
before it leaves. Gives the actions bound and the last nest. -/
def bindAll (n : Nest) : List Action → Except Action.Error (List Action × Nest)
  | [] => .ok ([], n)
  | a :: rest => do
    let bound ← a.bind n
    let (more, last) ← bindAll (bound.nest?.getD n) rest
    return (bound :: more, last)

theorem bindAll_concat {as bs : List Action} {a bound : Action} {last next : Nest}
    (before : bindAll n as = .ok (bs, last)) (binds : a.bind last = .ok bound)
    (changed : bound.nest? = some next) : bindAll n (as ++ [a]) = .ok (bs ++ [bound], next) := by
  induction as generalizing n bs with
  | nil =>
    cases before
    simp only [List.nil_append, bindAll, Except.bind_eq_ok_iff]
    exact ⟨bound, binds, _, rfl, by rw [changed]; rfl⟩
  | cons first as ih =>
    simp only [bindAll, Except.bind_eq_ok_iff, Except.pure_eq_ok_iff] at before
    obtain ⟨bound', binds', ⟨more, last'⟩, behind, same⟩ := before
    cases same
    simp only [List.cons_append, bindAll, binds', Except.bind_eq_ok_iff]
    exact ⟨bound', rfl, _, ih behind, rfl⟩

end Action
end LoopNest
