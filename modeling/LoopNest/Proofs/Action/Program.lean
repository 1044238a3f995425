import LoopNest.Proofs.Action.Apart
import LoopNest.Proofs.Action.Tiled
import LoopNest.Proofs.Nest.Views

/-! The targets and the program of an action that is bound without given computations. The targets
are the computations under the outermost loop, or under either loop of a fusion, in execution order.
The program has a line for each of them and then rebuilds the execution order. -/
namespace LoopNest

open Forest

/-- A loop of a list has the least level; of several that have it, the loop is the first. -/
def FirstLeast (ids : List LoopId) (id : LoopId) : Prop :=
  ∃ before after, ids = before ++ id :: after ∧ (∀ other ∈ before, id.level < other.level) ∧
    ∀ other ∈ after, id.level ≤ other.level

/-- A text rebuilds an execution order: it names the first computation, and then each other one
behind the one before it, with one level. -/
def Rebuilds (order : List String) (levels : List Sharing) (text : String) : Prop :=
  ∃ (first : String) (behind : List (String × Sharing)),
    order = first :: behind.map Prod.fst ∧ levels = behind.map Prod.snd ∧ text =
      "clear_implicit_function_sched_graph();\n    " ++ first ++
        String.join (behind.map fun (c, level) => ".then(" ++ c ++ "," ++ level.text ++ ")") ++
        ";\n"

theorem rebuilds_orderStatement {order : List String} {levels : List Sharing}
    (length : levels.length + 1 = order.length) :
    Rebuilds order levels (orderStatement order levels) := by
  cases order with
  | nil => cases length
  | cons first rest =>
    have same : rest.length = levels.length := (Nat.succ.inj length).symm
    refine ⟨first, rest.zip levels, ?_, ?_, rfl⟩
    · rw [List.map_fst_zip (Nat.le_of_eq same)]
    · rw [List.map_snd_zip (Nat.le_of_eq same.symm)]

namespace Nest

variable {n : Nest}

theorem Placed.mem_computationsUnder_iff_chain (h : n.Placed) {id : LoopId} {cs : List String}
    (found : n.computationsUnder id = .ok cs) {c : String} :
    c ∈ cs ↔ ∃ ids, n.chain c = .ok ids ∧ id ∈ ids := by
  obtain ⟨outer, t, way, name, deep, rfl⟩ := h.computationsUnder_eq_ok_iff.mp found
  have holds : n.Holds id := ⟨outer, t, way, name, deep⟩
  simp only [chain_eq_ok_iff_chain?]
  constructor
  · intro mem
    obtain ⟨path, chain⟩ := h.exists_chain? (h.under_subset way (mem_sortBy.mp mem))
    refine ⟨_, ⟨path, chain, rfl⟩, (h.mem_pathIds_iff holds chain).mpr ?_⟩
    exact (h.mem_computationsUnder_iff found chain).mp mem
  · rintro ⟨-, ⟨path, chain, rfl⟩, mem⟩
    exact (h.mem_computationsUnder_iff found chain).mpr ((h.mem_pathIds_iff holds chain).mp mem)

theorem Placed.nodup_computationsUnder (h : n.Placed) {id : LoopId} {cs : List String}
    (found : n.computationsUnder id = .ok cs) : cs.Nodup := by
  obtain ⟨outer, t, way, -, -, rfl⟩ := h.computationsUnder_eq_ok_iff.mp found
  exact (sortBy_perm _ _).nodup_iff.mpr (h.nodup_under way)

end Nest

namespace Change

variable {n m : Nest} {c : Change} {targets : List String}

theorem outermost?_eq_some_iff {ids : List LoopId} {id : LoopId} :
    outermost? ids = some id ↔ FirstLeast ids id := by
  constructor
  · intro least
    induction ids generalizing id with
    | nil => cases least
    | cons a rest ih =>
      have above := outermost?_le least
      simp only [outermost?] at least
      split at least
      · next b hb =>
        split at least
        · next less =>
          cases least
          obtain ⟨before, after, rfl, first, behind⟩ := ih hb
          exact ⟨a :: before, after, rfl, List.forall_mem_cons.mpr ⟨less, first⟩, behind⟩
        · cases least
          exact ⟨[], rest, rfl, by simp, fun other mem => above other (List.mem_cons_of_mem _ mem)⟩
      · cases least
        exact ⟨[], rest, rfl, by simp, fun other mem => above other (List.mem_cons_of_mem _ mem)⟩
  · rintro ⟨before, after, rfl, first, behind⟩
    induction before with
    | nil =>
      rw [List.nil_append, outermost?]
      split
      · next b hb => rw [if_neg (Nat.not_lt.mpr (behind b (outermost?_mem hb)))]
      · rfl
    | cons a before ih =>
      obtain ⟨here, first⟩ := List.forall_mem_cons.mp first
      rw [List.cons_append, outermost?, ih first]
      simp [here]

def About : Change → LoopId → Prop
  | fusion a b, id => id = a ∨ id = b
  | c, id => FirstLeast c.loops id

theorem about_iff_of_ne (apart : c.form ≠ .fusion) {id : LoopId} :
    c.About id ↔ outermost? c.loops = some id := by
  rw [outermost?_eq_some_iff]
  cases c with
  | fusion a b => exact absurd rfl apart
  | _ => rfl

/-- The targets of a change: each computation that it is about once, in execution order. -/
structure Targeted (n : Nest) (c : Change) (targets : List String) : Prop where
  ordered : targets.Pairwise fun x y => n.order.idxOf x < n.order.idxOf y
  mem_iff : ∀ x, x ∈ targets ↔
    x ∈ n.order ∧ ∃ ids, n.chain x = .ok ids ∧ ∃ id ∈ ids, c.About id

theorem disjoint_of_fuse (h : n.Placed) {a b : LoopId} (holdsA : n.Holds a) (holdsB : n.Holds b)
    (fits : (fusion a b).Compatible n) (applied : (fusion a b).apply n = .ok m)
    {underA underB : List String} (foundA : n.computationsUnder a = .ok underA)
    (foundB : n.computationsUnder b = .ok underB) : underA.Disjoint underB := by
  obtain ⟨outer, kept, removed, fused, nameA, nameB, -⟩ := h.exists_fused holdsA holdsB fits applied
  intro x inA inB
  obtain ⟨ids, chain, -⟩ := (h.mem_computationsUnder_iff_chain foundA).mp inA
  obtain ⟨path, chain, -⟩ := Nest.chain_eq_ok_iff_chain?.mp chain
  refine fused.not_both h chain ⟨?_, ?_⟩
  · rw [nameA]
    exact (h.mem_computationsUnder_iff foundA chain).mp inA
  · rw [nameB]
    exact (h.mem_computationsUnder_iff foundB chain).mp inB

/-- What a fusion is about is sorted from what is under either loop. -/
theorem targeted_of_fuse (h : n.Placed) {a b : LoopId} (holdsA : n.Holds a) (holdsB : n.Holds b)
    (fits : (fusion a b).Compatible n) (applied : (fusion a b).apply n = .ok m)
    (found : (fusion a b).targets n = .ok targets) : (fusion a b).Targeted n targets := by
  have known := targets_subset h found
  simp only [Change.targets, Except.bind_eq_ok_iff, Except.pure_eq_ok_iff] at found
  obtain ⟨underA, foundA, underB, foundB, rfl⟩ := found
  have apart := disjoint_of_fuse h holdsA holdsB fits applied foundA foundB
  have unique := List.nodup_append'.mpr
    ⟨h.nodup_computationsUnder foundA, h.nodup_computationsUnder foundB, apart⟩
  refine ⟨pairwise_sortBy_idxOf unique fun x mem => known (mem_sortBy.mpr mem), fun x => ?_⟩
  rw [← and_iff_right_of_imp (@known x), and_congr_right_iff]
  intro _
  rw [Nest.sortByRank, mem_sortBy, List.mem_append, h.mem_computationsUnder_iff_chain foundA,
    h.mem_computationsUnder_iff_chain foundB]
  simp only [About]
  grind

theorem targeted_of_outermost (h : n.Placed) (apart : c.form ≠ .fusion)
    (found : c.targets n = .ok targets) : c.Targeted n targets := by
  have known := targets_subset h found
  obtain ⟨id, least⟩ := exists_outermost? c
  rw [targets_of_outermost apart least] at found
  obtain ⟨outer, t, way, -, -, rfl⟩ := h.computationsUnder_eq_ok_iff.mp found
  refine ⟨pairwise_sortBy_idxOf (h.nodup_under way) fun x mem => h.under_subset way mem,
    fun x => ?_⟩
  rw [← and_iff_right_of_imp (@known x), and_congr_right_iff]
  intro _
  rw [h.mem_computationsUnder_iff_chain found]
  simp only [about_iff_of_ne apart, least, Option.some.injEq]
  grind

theorem targeted_of_targets (h : n.Placed) (holds : ∀ id ∈ c.loops, n.Holds id)
    (fits : c.Compatible n) (applied : c.apply n = .ok m) (found : c.targets n = .ok targets) :
    c.Targeted n targets := by
  by_cases fuses : c.form = .fusion
  · cases c with
    | fusion a b =>
      exact targeted_of_fuse h (holds a (by simp [loops])) (holds b (by simp [loops])) fits applied
        found
    | _ => cases fuses
  · exact targeted_of_outermost h fuses found

theorem length_levels {levels : List Sharing} (found : c.levels n targets = .ok levels) :
    levels.length = n.order.length - 1 := by
  obtain ⟨plain, sharings, adjusted⟩ := Except.bind_eq_ok_iff.mp found
  obtain ⟨length, -⟩ := Nest.getElem?_sharings sharings
  by_cases fuses : c.form = .fusion
  · cases c with
    | fusion a b =>
      simp only [adjustSharings, Except.bind_eq_ok_iff, Except.pure_eq_ok_iff] at adjusted
      obtain ⟨underA, -, underB, -, rfl⟩ := adjusted
      simp [length]
    | _ => cases fuses
  · rw [adjustSharings_of_ne fuses] at adjusted
    cases adjusted
    exact length

/-- The program of a change: a line for each target, and then the execution order, if there are
several computations. -/
structure Written (n : Nest) (c : Change) (targets lines : List String) (tail : String) : Prop where
  unsaid : c.form = .fusion → lines = []
  /-- Every other change has the same call of the backend on each target, with the levels of its
  loops and then its factors. -/
  calls : c.form ≠ .fusion → ∃ method, c.method? = some (method,
      (c.loops.map fun id => toString id.level) ++ c.factors.map Factor.text) ∧
    lines = targets.map fun x => x ++ "." ++ method ++ "(" ++ String.intercalate ", "
      ((c.loops.map fun id => toString id.level) ++ c.factors.map Factor.text) ++ ");\n"
  single : n.order.length < 2 → tail = ""
  several : 2 ≤ n.order.length →
    ∃ levels, c.levels n targets = .ok levels ∧ Rebuilds n.order levels tail

theorem exists_method? (apart : c.form ≠ .fusion) : ∃ method, c.method? = some (method,
    (c.loops.map fun id => toString id.level) ++ c.factors.map Factor.text) := by
  cases c with
  | fusion a b => exact absurd rfl apart
  | _ => exact ⟨_, rfl⟩

theorem written_of_render {rendering : Rendering}
    (rendered : c.render n targets = .ok rendering) :
    ∃ lines tail, rendering.program = String.join lines ++ tail ∧
      c.Written n targets lines tail := by
  obtain ⟨tail, ending, made⟩ := Except.bind_eq_ok_iff.mp rendered
  obtain rfl := (Except.ok.inj made).symm
  have single : n.order.length < 2 → tail = "" := fun few => by
    rw [orderText, if_pos (Nat.le_of_lt_succ few)] at ending
    exact (Except.ok.inj ending).symm
  have several : 2 ≤ n.order.length →
      ∃ levels, c.levels n targets = .ok levels ∧ Rebuilds n.order levels tail := fun many => by
    obtain ⟨levels, found, rfl⟩ := Except.map_eq_ok_iff.mp
      ((if_neg (Nat.not_le.mpr many)).symm.trans ending)
    have length := length_levels found
    exact ⟨levels, found, rebuilds_orderStatement (by omega)⟩
  by_cases fuses : c.form = .fusion
  · cases c with
    | fusion a b =>
      refine ⟨[], tail, by rw [join_statements_fusion]; rfl, fun _ => rfl,
        fun apart => absurd rfl apart, single, several⟩
    | _ => cases fuses
  · obtain ⟨method, call⟩ := exists_method? fuses
    refine ⟨targets.map c.statement, tail, rfl, fun is => absurd is fuses,
      fun _ => ⟨method, call, ?_⟩, single, several⟩
    exact List.map_congr_left fun x _ => by simp only [statement, call]

end Change

/-- An action that binds to a reachable nest without given computations is about those that have
its outermost loop on their chain, or either loop of a fusion, in execution order. Its program has a
line for each of these, none if it fuses, and then, if the nest has several computations, the
execution order, in which each computation stands once and each but the first with a level. -/
theorem Reachable.program_of_bind {n : Nest} (reached : Reachable n) {a bound : Action}
    (binds : a.bind n = .ok bound) (free : a.explicit = none) :
    ∃ targets rendering, bound.targets = some targets ∧ bound.rendering = .ok rendering ∧
      n.order.Nodup ∧ bound.change.Targeted n targets ∧
      ∃ lines tail, rendering.program = String.join lines ++ tail ∧
        bound.change.Written n targets lines tail := by
  have h := reached.placed
  obtain ⟨change, targets, rendering, m, refers, fits, found, rendered, applied, rfl⟩ :=
    (Action.bind_eq_ok_iff h).mp binds
  rw [free, Action.findTargets, Except.mapError_eq_ok_iff] at found
  exact ⟨targets, rendering, rfl, rfl, h.order,
    Change.targeted_of_targets h refers.holds fits applied found, Change.written_of_render rendered⟩

theorem program_tileParted : ∃ lines tail,
    (tiledParted "a_tile").rendering.program = String.join lines ++ tail ∧
      (tileParted "a").change.Written partedNest ["s0", "s", "s1"] lines tail ∧
      (tileParted "a").change.Targeted partedNest ["s0", "s", "s1"] := by
  obtain ⟨targets, rendering, found, rendered, -, about, lines, tail, text, written⟩ :=
    reachable_parted.program_of_bind bind_tileParted rfl
  cases found
  cases rendered
  exact ⟨lines, tail, text, written, about⟩

end LoopNest
