import LoopNest.Proofs.Reachable

/-! Binding to one nest and then to another. What an action keeps of the first binding is the loops
that its parameters stood for there. The second binding is that of the action as it was made exactly
if these loops stand in the second nest for what the parameters themselves stand for there. -/
namespace LoopNest

theorem forall₂_iff_of_unique {α : Type} {R S : α → α → Prop}
    (uniqueR : ∀ {a b b'}, R a b → R a b' → b = b') (uniqueS : ∀ {a b b'}, S a b → S a b' → b = b')
    {as bs cs : List α} (first : List.Forall₂ R as bs) (second : List.Forall₂ S as cs) :
    List.Forall₂ S bs cs ↔ ∀ a ∈ as, ∀ b c, R a b → S a c → S b c := by
  induction first generalizing cs with
  | nil =>
    cases second
    simp
  | @cons a b as bs here _ ih =>
    cases second with
    | @cons _ c _ cs there rest =>
      rw [List.forall₂_cons, ih rest, List.forall_mem_cons]
      refine and_congr_left fun _ => ⟨fun related b' c' hb hc => ?_, fun all => all b c here there⟩
      rwa [uniqueR hb here, uniqueS hc there]

namespace Action

/-- What a call that binds leaves of an action: the bound action, or the action as it was if it does
not bind. -/
def tried (a : Action) (n : Nest) : Action :=
  match a.bind n with
  | .ok bound => bound
  | .error _ => a

variable {n m : Nest} {a bound fresh : Action}

theorem refers_of_bind (h : n.Placed) (binds : a.bind n = .ok bound) :
    a.change.Refers n bound.change := by
  obtain ⟨change, -, -, -, refers, -, -, -, -, rfl⟩ := (bind_eq_ok_iff h).mp binds
  exact refers

theorem bind_bound_iff_refers (h : n.Placed) (h' : m.Placed) (before : a.bind n = .ok bound)
    (binds : a.bind m = .ok fresh) :
    bound.bind m = .ok fresh ↔ bound.change.Refers m fresh.change := by
  refine ⟨fun again => refers_of_bind h' again, fun refers => ?_⟩
  obtain ⟨change, _, _, _, -, -, -, -, -, rfl⟩ := (bind_eq_ok_iff h).mp before
  obtain ⟨change', targets, rendering, left, -, fits, found, rendered, applied, rfl⟩ :=
    (bind_eq_ok_iff h').mp binds
  exact (bind_eq_ok_iff h').mpr
    ⟨change', targets, rendering, left, refers, fits, found, rendered, applied, rfl⟩

/-- A bound action binds as afresh exactly if each loop that was resolved before stands now for what the parameter
stands for. -/
theorem bind_bound_iff (h : n.Placed) (h' : m.Placed) (before : a.bind n = .ok bound)
    (binds : a.bind m = .ok fresh) :
    bound.bind m = .ok fresh ↔
      ∀ id ∈ a.change.loops, ∀ here there, n.resolve id = .ok here → m.resolve id = .ok there →
        m.resolve here = .ok there := by
  obtain ⟨form, loops, factors⟩ := refers_of_bind h before
  obtain ⟨form', loops', factors'⟩ := refers_of_bind h' binds
  have resolved := loops.imp fun _ _ => h.resolve_eq_ok_iff.mpr
  have resolved' := loops'.imp fun _ _ => h'.resolve_eq_ok_iff.mpr
  have unique (n : Nest) {x y y' : LoopId} (one : n.resolve x = .ok y)
      (other : n.resolve x = .ok y') : y = y' := Except.ok.inj (one.symm.trans other)
  refine (bind_bound_iff_refers h h' before binds).trans (Iff.trans ?_ <|
    forall₂_iff_of_unique (R := fun id found => n.resolve id = .ok found)
      (S := fun id found => m.resolve id = .ok found) (unique n) (unique m) resolved resolved')
  simp only [Change.Refers, ← form, form', ← factors, factors', true_and, and_true,
    h'.resolve_eq_ok_iff]

end Action

/-- An action that binds to a nest binds to it in the same way after a call that binds it to another
nest, exactly if that call failed or the loops that it resolved stand in the second nest for what the
parameters stand for there. So it does if the parameters are loops of the first nest. -/
theorem Reachable.bind_tried_iff {n m : Nest} (first : Reachable n) (second : Reachable m)
    {a fresh : Action} (binds : a.bind m = .ok fresh) :
    ((a.tried n).bind m = .ok fresh ↔
      (∃ e, a.bind n = .error e) ∨
        ∀ id ∈ a.change.loops, ∀ here there, n.resolve id = .ok here → m.resolve id = .ok there →
          m.resolve here = .ok there) ∧
    ((∀ id ∈ a.change.loops, n.contains id = true) → (a.tried n).bind m = .ok fresh) := by
  have h := first.placed
  have h' := second.placed
  have same :
      (a.tried n).bind m = .ok fresh ↔
        (∃ e, a.bind n = .error e) ∨
          ∀ id ∈ a.change.loops, ∀ here there, n.resolve id = .ok here →
            m.resolve id = .ok there → m.resolve here = .ok there := by
    cases before : a.bind n with
    | error e => simp [Action.tried, before, binds]
    | ok bound =>
      simp only [Action.tried, before, reduceCtorEq, exists_false, false_or]
      exact Action.bind_bound_iff h h' before binds
  refine ⟨same, fun known => same.mpr (.inr fun id mem here there resolved resolved' => ?_)⟩
  rw [Nest.resolve, if_pos (known id mem)] at resolved
  cases resolved
  exact resolved'

def markAround (computation : String) : Action where
  change := .parallelization ⟨computation, 0⟩

def markedNest (first second : Bool) : Nest where
  loops :=
    .cons { name := "y_tile", lower := .concrete 0, upper := .concrete 8, parallel := first } []
      (.cons { name := "x_tile", lower := .concrete 0, upper := .concrete 4 } []
        (.cons { name := "y", lower := .concrete 0, upper := .concrete 64 } []
          (.cons { name := "x", lower := .concrete 0, upper := .concrete 64 } ["rows"] .nil .nil)
          .nil)
        .nil) <|
    .cons { name := "v", lower := .concrete 0, upper := .concrete 64, parallel := second } []
      (.cons { name := "u", lower := .concrete 0, upper := .concrete 64 } ["columns"] .nil .nil)
      .nil
  computations := [⟨"rows", ""⟩, ⟨"columns", ""⟩]

def marked (loop computation : String) (nest : Nest) : Action where
  change := .parallelization ⟨loop, 0⟩
  binding := some {
    nest
    targets := [computation]
    rendering := {
      program := computation ++ ".tag_parallel_level(0);\n" ++ clearStatement ++
        "rows.then(columns,-1);\n"
      signature := "P(L0,comps=['" ++ computation ++ "'])"
      legality := computation ++ ".tag_parallel_level(0);\n" ++ clearStatement ++
        "rows.then(columns,-1);\n" } }

theorem bind_tried_markColumns :
    ((markAround "columns").tried blurNest).bind tiledNest =
      .ok (marked "v" "columns" (markedNest false true)) := by
  have tiled : Reachable tiledNest := .bound reachable_blur bind_tileRows rfl
  have binds : (markAround "columns").bind tiledNest =
      .ok (marked "v" "columns" (markedNest false true)) := by
    cbv
  refine (Reachable.bind_tried_iff reachable_blur tiled binds).1.mpr (.inr fun id mem => ?_)
  obtain rfl : id = ⟨"columns", 0⟩ := List.mem_singleton.mp mem
  have here : blurNest.resolve ⟨"columns", 0⟩ = .ok ⟨"v", 0⟩ := by decide +kernel
  have there : tiledNest.resolve ⟨"columns", 0⟩ = .ok ⟨"v", 0⟩ := by decide +kernel
  rintro _ _ found found'
  cases here.symm.trans found
  cases there.symm.trans found'
  decide +kernel

/-- The outermost loop of the first stage is no longer outermost once it is tiled. An action that
has been bound before asks for it all the same, and fails where it binds afresh. -/
theorem bind_tried_markRows_ne :
    Reachable blurNest ∧ Reachable tiledNest ∧
    (markAround "rows").bind tiledNest = .ok (marked "y_tile" "rows" (markedNest true false)) ∧
    ((markAround "rows").tried blurNest).bind tiledNest =
      .error (.notFound (.unknownComputation "y")) :=
  ⟨reachable_blur, .bound reachable_blur bind_tileRows rfl, by cbv, by cbv⟩

end LoopNest
