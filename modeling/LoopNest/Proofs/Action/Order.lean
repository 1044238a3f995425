import LoopNest.Proofs.Nest.Walk
import LoopNest.Proofs.Reachable

/-! The execution order after binding. The changed nest is renumbered, so its order is depth-first
and renumbering it again changes nothing. Unless loops are fused, the computations under each loop
are the same as before, so a depth-first order is kept, and no other. -/
namespace LoopNest

open Forest

namespace Nest

variable {n m : Nest}

theorem Placed.depthFirst_apply_iff (h : n.Placed) {c : Change} (holds : ∀ id ∈ c.loops, n.Holds id)
    (fits : c.Compatible n) (apart : c.form ≠ .fusion) (applied : c.apply n = .ok m) :
    m.DepthFirst ↔ n.DepthFirst := by
  obtain ⟨m', applied', placed, same⟩ := h.apply holds fits
  rw [applied] at applied'
  cases applied'
  have order : m.order = n.order := congrArg (List.map Computation.name) same
  refine h.depthFirst_congr placed order fun cs => ?_
  rcases Change.apply_cases h holds fits with ⟨edit, edited, -⟩ | ⟨name, tiles, tiled, -, -⟩ |
    ⟨a, b, -, rfl, -⟩
  · rw [applied] at edited
    cases edited
    rw [map_under_mapLoops]
  · rw [applied] at tiled
    cases tiled
    exact mem_map_under_enclose
  · exact absurd rfl apart

/-- A change other than a fusion edits the forest and leaves the nest sound. Renumbering gives the computations that
it gives without the change. -/
theorem Sound.renumber_apply (h : n.Sound) {c : Change} (holds : ∀ id ∈ c.loops, n.Holds id)
    (fits : c.Compatible n) (apart : c.form ≠ .fusion) (applied : c.apply n = .ok m) :
    m.Sound ∧ m.computations = n.computations ∧
      m.renumber = { n.renumber with loops := m.loops } := by
  have placed := (h.toPlaced.of_apply holds fits applied).1
  rcases Change.apply_cases h.toPlaced holds fits with ⟨edit, edited, -⟩ |
    ⟨name, tiles, tiled, -, -⟩ | ⟨a, b, -, rfl, -⟩
  · cases applied.symm.trans edited
    have sound := h.mapLoops placed
    exact ⟨sound, rfl, sound.renumber_of_blocks fun _ _ => blocks_mapLoops _ _ _ _⟩
  · cases applied.symm.trans tiled
    have sound := h.enclose placed
    exact ⟨sound, rfl, sound.renumber_of_blocks fun _ _ => blocks_enclose _ _ _ _ _⟩
  · exact absurd rfl apart

end Nest

/-- Renumbering is canonical on reachable nests: it changes nothing exactly if the order is
depth-first, and nothing the second time. Each action that binds leaves a nest in a depth-first
order, which renumbering leaves as it is; unless the action is a fusion, the order is the one
before exactly if that one was depth-first. -/
theorem Reachable.renumber_canonical {n : Nest} (reached : Reachable n) :
    (n.renumber = n ↔ n.DepthFirst) ∧
    n.renumber.renumber = n.renumber ∧
    ∀ (a bound : Action) (b : Binding), a.bind n = .ok bound → bound.binding = some b →
      b.nest.DepthFirst ∧ b.nest.renumber = b.nest ∧
      (a.form ≠ .fusion → (b.nest.order = n.order ↔ n.DepthFirst)) := by
  have h := reached.placed
  refine ⟨reached.sound.renumber_eq_self_iff, h.renumber_renumber,
    fun a bound b binds binding => ?_⟩
  obtain ⟨change, targets, rendering, m, refers, fits, -, -, applied, rfl⟩ :=
    (Action.bind_eq_ok_iff h).mp binds
  cases binding
  obtain ⟨m', applied', placed, same⟩ := h.apply refers.holds fits
  rw [applied] at applied'
  cases applied'
  refine ⟨placed.depthFirst_renumber, placed.renumber_renumber, fun apart => ?_⟩
  have sameForm : a.form = change.form := refers.1
  have order : m.order = n.order := congrArg (List.map Computation.name) same
  rw [sameForm] at apart
  rw [← h.depthFirst_apply_iff refers.holds fits apart applied, ← placed.walkOrder_eq_iff,
    ← placed.order_renumber, order]

theorem depthFirst_blurNest : blurNest.DepthFirst :=
  (Reachable.renumber_canonical reachable_blur).1.mp (by cbv)

end LoopNest
