import LoopNest.Action.Candidates
import LoopNest.Proofs.Action.Bind
import LoopNest.Proofs.Action.Sharing
import LoopNest.Proofs.Nest.DepthFirst
import LoopNest.Proofs.Reachable

/-! The execution order after a fusion. The program of a fusion gives the order from before it,
while the fused nest is renumbered. Both are the same exactly if what stands under the two loops is
a run; other computations between the two are moved out of the way in the nest, and the program does
not say so. -/
namespace LoopNest

open Forest

theorem mem_map_redirect {name x : String} {target : Loop} (differ : target.name ≠ name)
    {path : List Loop} :
    x ∈ (path.map (redirect name target)).map Loop.name ↔
      (x ≠ name ∧ x ∈ path.map Loop.name) ∨ (x = target.name ∧ name ∈ path.map Loop.name) := by
  induction path with
  | nil => simp
  | cons loop path ih =>
    rw [List.map_cons, List.map_cons, List.mem_cons, ih, redirect]
    split
    · next same =>
      subst same
      grind
    · next other => grind

namespace Nest

variable {n m : Nest} {outer around : List Loop} {kept removed t : Tree}

theorem Placed.mem_of_computationsUnder (h : n.Placed) {id : LoopId} {cs : List String}
    (found : n.computationsUnder id = .ok cs) (way : Way n.loops outer t)
    (named : t.loop.name = id.name) {c : String} : c ∈ cs ↔ c ∈ t.under := by
  obtain ⟨outer', t', way', named', -, rfl⟩ := h.computationsUnder_eq_ok_iff.mp found
  obtain ⟨-, rfl⟩ := way'.eq_of_name_eq h.names way (named'.trans named.symm)
  exact mem_sortBy

theorem Fused.way_kept (f : n.Fused m outer kept removed) (h : n.Placed) :
    Way m.loops outer
      ⟨kept.loop, kept.computations ++ removed.computations, kept.body ++ removed.body⟩ :=
  f.loops ▸ f.way.fuse_self h.names f.way' f.differ

theorem Fused.mem_under_iff (f : n.Fused m outer kept removed) (h : n.Placed) (h' : m.Placed)
    (way : Way m.loops around t) {c : String} {path : List Loop}
    (chain : n.loops.chain? c = some path) :
    c ∈ t.under ↔
      (t.loop.name ≠ removed.loop.name ∧ t.loop.name ∈ path.map Loop.name) ∨
        (t.loop.name = kept.loop.name ∧ removed.loop.name ∈ path.map Loop.name) := by
  have moved : m.loops.chain? c = some (path.map (redirect removed.loop.name kept.loop)) := by
    rw [f.chain?_eq h, chain, Option.map_some]
  rw [h'.mem_under_iff moved way, mem_map_redirect f.differ]

theorem Fused.mem_under_kept_iff (f : n.Fused m outer kept removed) (h : n.Placed) (h' : m.Placed)
    (way : Way m.loops around t) (merged : t.loop.name = kept.loop.name) (c : String) :
    c ∈ t.under ↔ c ∈ kept.under ++ removed.under := by
  obtain ⟨-, rfl⟩ := way.eq_of_name_eq h'.names (f.way_kept h) merged
  simp only [Tree.under, computations_append, List.mem_append]
  tauto

/-- What stands under any other loop stood under it before. -/
theorem Fused.exists_same_under (f : n.Fused m outer kept removed) (h : n.Placed) (h' : m.Placed)
    (order : m.order = n.order) (way : Way m.loops around t)
    (other : t.loop.name ≠ kept.loop.name) {x : String} (mem : x ∈ t.under) :
    ∃ s ∈ n.loops.subtrees, ∀ c, c ∈ s.under ↔ c ∈ t.under := by
  have mem_iff {c : String} {path : List Loop} (chain : n.loops.chain? c = some path) :
      c ∈ t.under ↔ t.loop.name ≠ removed.loop.name ∧ t.loop.name ∈ path.map Loop.name := by
    rw [f.mem_under_iff h h' way chain]
    simp [other]
  obtain ⟨path, chain⟩ := h.exists_chain? (order ▸ h'.under_subset way mem)
  obtain ⟨remains, onPath⟩ := (mem_iff chain).mp mem
  obtain ⟨beyond, last, leads, -, rfl⟩ := (chain?_eq_some_iff h.computations).mp chain
  have known : t.loop.name ∈ n.loops.names := (leads.sublist.map Loop.name).subset onPath
  obtain ⟨s, found⟩ := exists_find? known
  obtain ⟨inside, same⟩ := (find?_eq_some_iff h.names).mp found
  obtain ⟨above, wayS⟩ := Forest.exists_way inside
  refine ⟨s, inside, fun c => ?_⟩
  by_cases ranked : c ∈ n.order
  · obtain ⟨path', chain'⟩ := h.exists_chain? ranked
    rw [mem_iff chain', h.mem_under_iff chain' wayS, same]
    simp [remains]
  · have absent : c ∉ t.under := fun mem => ranked (order ▸ h'.under_subset way mem)
    have nowhere : c ∉ s.under := fun mem => ranked (h.under_subset wayS mem)
    simp only [absent, nowhere]

/-- A fusion keeps a depth-first order depth-first exactly if what stands under the two loops is a
run of it. -/
theorem Fused.depthFirst_iff (f : n.Fused m outer kept removed) (h : n.Placed) (h' : m.Placed)
    (order : m.order = n.order) (depthFirst : n.DepthFirst) :
    m.DepthFirst ↔ Run n.order (kept.under ++ removed.under) := by
  rw [h'.depthFirst_iff, order]
  constructor
  · intro runs
    have way := f.way_kept h
    exact (runs _ way.mem_subtrees).congr (f.mem_under_kept_iff h h' way rfl)
  · intro run t mem
    obtain ⟨around, way⟩ := Forest.exists_way mem
    by_cases merged : t.loop.name = kept.loop.name
    · exact run.congr fun c => (f.mem_under_kept_iff h h' way merged c).symm
    · intro x hx
      obtain ⟨s, inside, same⟩ := f.exists_same_under h h' order way merged hx
      exact ((h.depthFirst_iff.mp depthFirst s inside).congr same) x hx

end Nest

namespace Change

variable {n : Nest} {a b : LoopId}

theorem join_statements_fusion (targets : List String) :
    String.join (targets.map (fusion a b).statement) = "" := by
  induction targets with
  | nil => rfl
  | cons c targets ih => rw [List.map_cons, String.join_cons, ih]; rfl

/-- The program of a fusion is the execution order before it, with the levels of its neighbours. -/
theorem render_fusion {targets : List String} {levels : List Sharing} {rendering : Rendering}
    (found : (fusion a b).levels n targets = .ok levels)
    (rendered : (fusion a b).render n targets = .ok rendering) :
    rendering.program = if n.order.length ≤ 1 then "" else orderStatement n.order levels := by
  simp only [render, join_statements_fusion, orderText, found] at rendered
  split at rendered
  · next few =>
    cases rendered
    simp [few]
  · next many =>
    cases rendered
    simp [many]

end Change

/-- In a nest whose order is depth-first, a fusion is told to the backend by the order before it
alone. The order of the fused nest is this order exactly if nothing else stands in it between the
computations under the two loops. -/
theorem Reachable.order_fusion_iff {n : Nest} (reached : Reachable n) (depthFirst : n.DepthFirst)
    {a bound : Action} {b : Binding} (fuses : a.form = .fusion) (binds : a.bind n = .ok bound)
    (binding : bound.binding = some b) :
    ∃ x y under under', bound.change = .fusion x y ∧ n.computationsUnder x = .ok under ∧
      n.computationsUnder y = .ok under' ∧
      (∃ levels, bound.change.levels n b.targets = .ok levels ∧
        b.rendering.program =
          if n.order.length ≤ 1 then "" else orderStatement n.order levels) ∧
      (b.nest.order = n.order ↔ Run n.order (under ++ under')) := by
  have h := reached.placed
  obtain ⟨change, targets, rendering, m, refers, fits, -, rendered, applied, rfl⟩ :=
    (Action.bind_eq_ok_iff h).mp binds
  cases binding
  have sameForm : change.form = .fusion := refers.1.symm.trans fuses
  cases change with
  | fusion x y =>
    have holdsX : n.Holds x := refers.holds x (by simp [Change.loops])
    have holdsY : n.Holds y := refers.holds y (by simp [Change.loops])
    obtain ⟨m', applied', placed, same⟩ := h.apply refers.holds fits
    rw [applied] at applied'
    cases applied'
    have order : m.order = n.order := congrArg (List.map Computation.name) same
    obtain ⟨outer, kept, removed, fused, nameX, nameY, deep⟩ :=
      h.exists_fused holdsX holdsY fits applied
    obtain ⟨under, hX⟩ := h.computationsUnder_ok holdsX
    obtain ⟨under', hY⟩ := h.computationsUnder_ok holdsY
    obtain ⟨levels, found⟩ := Change.levels_ok h refers.holds targets
    refine ⟨x, y, under, under', rfl, hX, hY,
      ⟨levels, found, Change.render_fusion found rendered⟩, ?_⟩
    have same (c : String) : c ∈ under ++ under' ↔ c ∈ kept.under ++ removed.under := by
      rw [List.mem_append, List.mem_append, h.mem_of_computationsUnder hX fused.way nameX,
        h.mem_of_computationsUnder hY fused.way' nameY]
    calc m.renumber.order = n.order
        ↔ m.walkOrder = m.order := by rw [placed.order_renumber, order]
      _ ↔ m.DepthFirst := placed.walkOrder_eq_iff
      _ ↔ Run n.order (kept.under ++ removed.under) :=
        fused.depthFirst_iff h placed order depthFirst
      _ ↔ Run n.order (under ++ under') :=
        ⟨fun run => run.congr fun c => (same c).symm, fun run => run.congr same⟩
  | _ => cases sameForm

def fuseStages : Action where
  change := .fusion ⟨"y", 0⟩ ⟨"v", 0⟩

def fusedStages : Binding where
  nest := {
    loops :=
      .cons { name := "y", lower := .concrete 0, upper := .concrete 64 } []
        (.cons { name := "x", lower := .concrete 0, upper := .concrete 64 } ["rows"] .nil <|
          .cons { name := "u", lower := .concrete 0, upper := .concrete 64 } ["columns"] .nil .nil)
        .nil
    computations := [⟨"rows", ""⟩, ⟨"columns", ""⟩] }
  targets := ["rows", "columns"]
  rendering := {
    program := clearStatement ++ "rows.then(columns,0);\n"
    signature := "F(L0,L0,comps=['rows', 'columns'])"
    legality := clearStatement ++ "rows.then(columns,0);\n" }

theorem bind_fuseStages :
    fuseStages.bind blurNest = .ok { fuseStages with binding := some fusedStages } := by
  cbv

theorem order_fusedStages :
    fusedStages.nest.order = blurNest.order ↔ Run blurNest.order ["rows", "columns"] := by
  have depthFirst : blurNest.DepthFirst :=
    reachable_blur.sound.renumber_eq_self_iff.mp (by cbv)
  obtain ⟨x, y, under, under', same, underX, underY, -, kept⟩ :=
    Reachable.order_fusion_iff reachable_blur depthFirst rfl bind_fuseStages rfl
  cases same
  have rows : blurNest.computationsUnder ⟨"y", 0⟩ = .ok ["rows"] := by decide +kernel
  have columns : blurNest.computationsUnder ⟨"v", 0⟩ = .ok ["columns"] := by decide +kernel
  cases rows.symm.trans underX
  cases columns.symm.trans underY
  exact kept

/-- Fuses the two inner loops. -/
def fuseParted : Action where
  change := .fusion ⟨"a", 1⟩ ⟨"b", 1⟩

def fusedParted : Binding where
  nest := {
    loops :=
      .cons { name := "i", lower := .concrete 0, upper := .concrete 10 } ["s"]
        (.cons { name := "a", lower := .concrete 0, upper := .concrete 10 } ["s0", "s1"] .nil .nil)
        .nil
    computations := [⟨"s0", ""⟩, ⟨"s1", ""⟩, ⟨"s", ""⟩] }
  targets := ["s0", "s1"]
  rendering := {
    program := clearStatement ++ "s0.then(s,0).then(s1,0);\n"
    signature := "F(L1,L1,comps=['s0', 's1'])"
    legality := clearStatement ++ "s0.then(s,0).then(s1,0);\n" }

theorem bind_fuseParted :
    fuseParted.bind partedNest = .ok { fuseParted with binding := some fusedParted } := by
  cbv

/-- Neighbouring loops that are offered for fusion need not be neighbours in execution order, and
then the program and the fused nest order the computations differently. -/
theorem order_fusedParted_ne :
    Reachable partedNest ∧ partedNest.DepthFirst ∧
    (⟨"i", 0⟩, [[⟨"a", 1⟩, ⟨"b", 1⟩]]) ∈ Form.fusion.candidates partedNest ∧
    fuseParted.bind partedNest = .ok { fuseParted with binding := some fusedParted } ∧
    fusedParted.rendering.program =
      orderStatement partedNest.order [.upTo 0, .upTo 0] ∧
    fusedParted.nest.order ≠ partedNest.order := by
  have listed : Form.fusion.candidates partedNest =
      [(⟨"i", 0⟩, [[⟨"a", 1⟩, ⟨"b", 1⟩]])] := by decide +kernel
  refine ⟨reachable_parted, ?_, listed ▸ List.mem_cons_self, bind_fuseParted, ?_, ?_⟩
  · exact reachable_parted.sound.renumber_eq_self_iff.mp (by cbv)
  · decide +kernel
  · decide

end LoopNest
