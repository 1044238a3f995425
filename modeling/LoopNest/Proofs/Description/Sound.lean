import LoopNest.Proofs.Description.Errors
import LoopNest.Proofs.Outline.Regular

/-! A description that loads gives a sound nest. The checks before the outline see to the names of
loops and computations and to the chains; with them the outline is laid out by the order of the
ranked computations. -/
namespace LoopNest

namespace Description

variable {d : Description}

theorem keys_loops_nodup (ok : d.error? = none) :
    ((d.loops.map fun item => (item.name, d.entry item)).map Prod.fst).Nodup := by
  rw [List.map_map]
  exact (error?_eq_none_iff.mp ok).loops

theorem names_ranked_nodup (ok : d.error? = none) :
    (d.ranked.map ComputationItem.name).Nodup :=
  (d.ranked_perm.map _).nodup_iff.mpr (error?_eq_none_iff.mp ok).computations

theorem exists_innermost (ok : d.error? = none) {c : ComputationItem} (mem : c ∈ d.ranked) :
    ∃ name ∈ d.loopNames, c.loops.getLast? = some name := by
  obtain ⟨some_loop, leads⟩ := (error?_eq_none_iff.mp ok).chains c (d.ranked_perm.mem_iff.mp mem)
  exact ⟨_, leads.mem_loopNames (List.getLast_mem some_loop),
    List.getLast?_eq_some_getLast some_loop⟩

theorem own_outline (ok : d.error? = none) {name : String} (mem : name ∈ d.loopNames) :
    d.outline.own name =
      (d.ranked.filter fun c => c.loops.getLast? == some name).map ComputationItem.name := by
  obtain ⟨item, hitem, rfl⟩ := List.mem_map.mp mem
  have found : d.outline.loops.get? item.name = some (d.entry item) :=
    (Table.get?_ofList (keys_loops_nodup ok)).mpr (List.mem_map.mpr ⟨item, hitem, rfl⟩)
  rw [Outline.own, found]
  rfl

theorem laidOut (ok : d.error? = none) :
    d.outline.LaidOut (d.ranked.map ComputationItem.name) := by
  have keys : d.outline.loops.keys = d.loopNames := by
    rw [outline, Table.keys_ofList (keys_loops_nodup ok), List.map_map]
    rfl
  refine Outline.laidOut_of_grouped (fun c => rfl) ?_ (names_ranked_nodup ok)
    (fun name mem => own_outline ok (keys ▸ mem)) ?_ rfl rfl
  · intro name e found
    obtain ⟨item, -, same⟩ :=
      List.mem_map.mp ((Table.get?_ofList (keys_loops_nodup ok)).mp found)
    obtain ⟨rfl, rfl⟩ := Prod.mk.inj same
    rfl
  · rw [keys]
    exact fun c => exists_innermost ok

theorem outline_of_nest? {n : Nest} (loaded : d.nest? = .ok n) :
    d.outline.LaidOut (d.ranked.map ComputationItem.name) ∧ d.outline.nest? = .ok n := by
  simp only [nest?] at loaded
  split at loaded
  · cases loaded
  · next ok => exact ⟨laidOut ok, loaded⟩

/-- The nest of a description is sound. -/
theorem sound {n : Nest} (loaded : d.nest? = .ok n) : n.Sound := by
  obtain ⟨laidOut, found⟩ := outline_of_nest? loaded
  exact laidOut.sound_of_nest? found

theorem regular {n : Nest} (loaded : d.nest? = .ok n) : d.outline.Regular := by
  obtain ⟨laidOut, found⟩ := outline_of_nest? loaded
  exact laidOut.regular_of_nest? found

end Description
end LoopNest
