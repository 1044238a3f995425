import LoopNest.Proofs.Action.Fusion
import LoopNest.Proofs.Action.Usable

/-! Binding again and rendering anew. What a bound action holds of its nest comes from the parameters
that it was made with, from the loops that these stand for, and, for the texts, from the targets that
it holds: all three ways give the same. Rendered against another nest the action keeps its targets and
its changed nest. Only a fusion can fail there, if the other nest lacks one of its loops. -/
namespace LoopNest

variable {n m : Nest}

theorem Nest.computationsUnder_of_not_contains {id : LoopId} (unknown : ¬n.contains id = true) :
    n.computationsUnder id = .error (.unknownLoopId id) := by
  simp [computationsUnder, unknown]

namespace Change

variable {c : Change} {targets : List String} {e : Nest.Error}

/-- The loop that a fusion misses in a nest of several computations: the first of its loops that the
nest does not have. -/
def Misses (n : Nest) (c : Change) (id : LoopId) : Prop :=
  c.form = .fusion ∧ 2 ≤ n.order.length ∧ c.loops.find? (fun id => !n.contains id) = some id

theorem adjustSharings_eq_error_iff (h : n.Placed) {order : List String} {levels : List Sharing} :
    c.adjustSharings n order levels = .error e ↔
      c.form = .fusion ∧ ∃ id, c.loops.find? (fun id => !n.contains id) = some id ∧
        e = .unknownLoopId id := by
  cases c with
  | fusion a b =>
    have known {id : LoopId} (holds : n.contains id = true) :
        ∃ cs, n.computationsUnder id = .ok cs :=
      h.computationsUnder_ok (h.contains_iff.mp holds)
    by_cases first : n.contains a = true
    · obtain ⟨underA, foundA⟩ := known first
      by_cases second : n.contains b = true
      · obtain ⟨underB, foundB⟩ := known second
        simp [adjustSharings, foundA, foundB, form, loops, first, second, bind, Except.bind, pure,
          Except.pure]
      · have missing := Nest.computationsUnder_of_not_contains second
        simp [adjustSharings, foundA, missing, form, loops, first, second, bind, Except.bind,
          eq_comm]
    · have missing := Nest.computationsUnder_of_not_contains first
      simp [adjustSharings, missing, form, loops, first, bind, Except.bind, eq_comm]
  | _ => simp [adjustSharings, form]

/-- Rendering fails only for a fusion that misses a loop. -/
theorem render_eq_error_iff (h : n.Placed) :
    c.render n targets = .error e ↔ ∃ id, c.Misses n id ∧ e = .unknownLoopId id := by
  obtain ⟨plain, sharings⟩ := h.sharings_ok targets c.form.addedLoops fun _ mem => mem
  have ending : c.render n targets = .error e ↔ c.orderText n targets = .error e := by
    simp [render, Except.bind_eq_error_iff, pure, Except.pure]
  rw [ending, orderText]
  split
  · next few =>
    simp only [Misses, reduceCtorEq, false_iff]
    rintro ⟨id, ⟨-, many, -⟩, -⟩
    omega
  · next many =>
    have several : 2 ≤ n.order.length := by omega
    have levels : c.levels n targets = c.adjustSharings n n.order plain := by
      simp only [Change.levels, sharings, bind, Except.bind]
    have failing : (c.levels n targets).map (orderStatement n.order) = .error e ↔
        c.levels n targets = .error e := by
      cases c.levels n targets <;> simp [Except.map]
    rw [failing, levels, adjustSharings_eq_error_iff h]
    simp [Misses, several, and_assoc]

end Change

namespace Action

variable {a bound : Action}

def rerendered (a : Action) (n : Nest) : Action :=
  match a.rerender n with
  | .ok fresh => fresh
  | .error _ => a

/-- Two actions do the same to the same nest and are about the same computations; only their texts
may differ. -/
structure SameBut (a b : Action) : Prop where
  change : a.change = b.change
  explicit : a.explicit = b.explicit
  targets : a.targets = b.targets
  nest : a.nest? = b.nest?

theorem rerender_eq_ok_iff {fresh : Action} : a.rerender n = .ok fresh ↔
    ∃ b rendering, a.binding = some b ∧ a.change.render n b.targets = .ok rendering ∧
      fresh = { a with binding := some { b with rendering } } := by
  cases held : a.binding with
  | none => simp [rerender, held]
  | some b =>
    simp only [rerender, held, Except.bind_eq_ok_iff, Except.mapError_eq_ok_iff,
      Except.pure_eq_ok_iff]
    simp

theorem rerender_eq_error_iff (h : m.Placed) {b : Binding} (held : a.binding = some b)
    {e : Action.Error} :
    a.rerender m = .error e ↔ ∃ id, a.change.Misses m id ∧ e = .notFound (.unknownLoopId id) := by
  have failing : a.rerender m = .error e ↔
      ∃ e', a.change.render m b.targets = .error e' ∧ Error.notFound e' = e := by
    simp [rerender, held, Except.bind_eq_error_iff, Except.mapError_eq_error_iff, pure, Except.pure]
  simp only [failing, Change.render_eq_error_iff h]
  constructor
  · rintro ⟨-, ⟨id, missing, rfl⟩, rfl⟩
    exact ⟨id, missing, rfl⟩
  · rintro ⟨id, missing, rfl⟩
    exact ⟨_, ⟨id, missing, rfl⟩, rfl⟩

theorem sameBut_rerendered (a : Action) (n : Nest) : (a.rerendered n).SameBut a := by
  cases outcome : a.rerender n with
  | error e =>
    simp only [rerendered, outcome]
    exact ⟨rfl, rfl, rfl, rfl⟩
  | ok fresh =>
    obtain ⟨b, rendering, held, -, rfl⟩ := rerender_eq_ok_iff.mp outcome
    simp only [rerendered, outcome]
    exact ⟨rfl, rfl, by simp [Action.targets, held], by simp [nest?, held]⟩

theorem rerender_bound (h : n.Placed) (binds : a.bind n = .ok bound) :
    bound.rerender n = .ok bound := by
  obtain ⟨change, targets, rendering, left, -, -, -, rendered, -, rfl⟩ :=
    (bind_eq_ok_iff h).mp binds
  exact rerender_eq_ok_iff.mpr ⟨_, rendering, rfl, rendered, rfl⟩

theorem ofParams_of_bind (h : n.Placed) (binds : a.bind n = .ok bound) :
    Action.ofParams a.form bound.change.params a.explicit =
      .ok { change := bound.change, explicit := a.explicit } := by
  obtain ⟨change, targets, rendering, left, refers, -, found, -, -, rfl⟩ :=
    (bind_eq_ok_iff h).mp binds
  have given := (findTargets_ok_iff h refers.holds).mp ⟨targets, found⟩
  have sameForm : change.form = a.form := refers.1.symm
  exact Action.ofParams_eq_ok_iff.mpr
    ⟨change, ⟨sameForm, rfl⟩, fun none_given => (given [] none_given).1 rfl, rfl⟩

theorem bind_congr {b : Action} (change : a.change = b.change) (explicit : a.explicit = b.explicit)
    (n : Nest) : a.bind n = b.bind n := by
  simp only [bind, change, explicit]

end Action

/-- An action bound to a reachable nest binds to it again and is as it was; an action made of its
parameters and the computations given at first binds to the nest just so; and rendering it anew leaves
its texts as they are. Rendered against another reachable nest, it fails exactly if it is a fusion and
the nest has several computations, but not both loops. It then is as it was, and in any case keeps its
loops, its targets and its changed nest. -/
theorem Reachable.bind_again {n : Nest} (reached : Reachable n) {a bound : Action}
    (binds : a.bind n = .ok bound) :
    bound.bind n = .ok bound ∧
    (∃ fresh, Action.ofParams a.form bound.change.params a.explicit = .ok fresh ∧
      fresh.binding = none ∧ fresh.bind n = .ok bound) ∧
    bound.rerender n = .ok bound ∧
    ∀ m, Reachable m →
      (∀ e, bound.rerender m = .error e ↔
        ∃ id, bound.change.Misses m id ∧ e = .notFound (.unknownLoopId id)) ∧
      (∀ e, bound.rerender m = .error e → bound.rerendered m = bound) ∧
      (bound.rerendered m).SameBut bound := by
  have h := reached.placed
  have again := Action.bind_bound h binds
  have given : bound.explicit = a.explicit ∧ ∃ b, bound.binding = some b := by
    obtain ⟨_, _, _, _, -, -, -, -, -, rfl⟩ := (Action.bind_eq_ok_iff h).mp binds
    exact ⟨rfl, _, rfl⟩
  obtain ⟨explicit, b, held⟩ := given
  refine ⟨again, ⟨_, Action.ofParams_of_bind h binds, rfl, ?_⟩, Action.rerender_bound h binds,
    fun m reached' => ⟨fun e => Action.rerender_eq_error_iff reached'.placed held, fun e fails => ?_,
      Action.sameBut_rerendered bound m⟩⟩
  · refine (Action.bind_congr ?_ ?_ n).trans again
    · rfl
    · exact explicit.symm
  · simp only [Action.rerendered, fails]

theorem bind_again_fuseStages :
    fuseStages.bind blurNest = .ok { fuseStages with binding := some fusedStages } ∧
      Action.bind { fuseStages with binding := some fusedStages } blurNest =
        .ok { fuseStages with binding := some fusedStages } ∧
      Reachable tiledNest ∧
      Action.rerender { fuseStages with binding := some fusedStages } tiledNest =
        .error (.notFound (.unknownLoopId ⟨"y", 0⟩)) ∧
      Action.rerendered { fuseStages with binding := some fusedStages } tiledNest =
        { fuseStages with binding := some fusedStages } := by
  have tiled : Reachable tiledNest := .bound reachable_blur bind_tileRows rfl
  obtain ⟨again, -, -, elsewhere⟩ := reachable_blur.bind_again bind_fuseStages
  obtain ⟨fails, kept, -⟩ := elsewhere tiledNest tiled
  have missing := (fails _).mpr ⟨⟨"y", 0⟩, ⟨rfl, by decide, by decide⟩, rfl⟩
  exact ⟨bind_fuseStages, again, tiled, missing, kept _ missing⟩

end LoopNest
