import LoopNest.Proofs.Declaration.Errors
import LoopNest.Proofs.Outline.Regular

/-! Declarations that put down a nest put down a sound one. -/
namespace LoopNest
namespace Declaration

variable {ds : List Declaration}

theorem keys_loops_nodup (ok : error? ds = none) :
    (((loops ds).map fun l => (l.name, entry ds l)).map Prod.fst).Nodup := by
  rw [List.map_map]
  exact (error?_eq_none_iff.mp ok).loops.nodup

theorem own_outline (ok : error? ds = none) {name : String}
    (mem : name ∈ (loops ds).map LoopDeclaration.name) :
    (outline ds).own name = ((computations ds).filter fun c => some c.loop == some name).map
      ComputationDeclaration.name := by
  obtain ⟨l, hl, rfl⟩ := List.mem_map.mp mem
  have found : (outline ds).loops.get? l.name = some (entry ds l) :=
    (Table.get?_ofList (keys_loops_nodup ok)).mpr (List.mem_map.mpr ⟨l, hl, rfl⟩)
  rw [Outline.own, found]
  rfl

theorem laidOut (ok : error? ds = none) :
    (outline ds).LaidOut ((computations ds).map ComputationDeclaration.name) := by
  obtain ⟨-, unique, placed⟩ := error?_eq_none_iff.mp ok
  have keys : (outline ds).loops.keys = (loops ds).map LoopDeclaration.name := by
    rw [outline, Table.keys_ofList (keys_loops_nodup ok), List.map_map]
    rfl
  refine Outline.laidOut_of_grouped (fun c => rfl) ?_ unique
    (fun name mem => own_outline ok (keys ▸ mem)) ?_ rfl rfl
  · intro name e found
    obtain ⟨l, -, same⟩ :=
      List.mem_map.mp ((Table.get?_ofList (keys_loops_nodup ok)).mp found)
    obtain ⟨rfl, rfl⟩ := Prod.mk.inj same
    rfl
  · rw [keys]
    exact fun c hc => ⟨c.loop, placed c hc, rfl⟩

theorem outline_of_nest? {n : Nest} (put : nest? ds = .ok n) :
    (outline ds).LaidOut ((computations ds).map ComputationDeclaration.name) ∧
      (outline ds).nest? = .ok n := by
  simp only [nest?] at put
  split at put
  · cases put
  · next ok => exact ⟨laidOut ok, put⟩

/-- The nest that declarations put down is sound. -/
theorem sound {n : Nest} (put : nest? ds = .ok n) : n.Sound := by
  obtain ⟨laidOut, found⟩ := outline_of_nest? put
  exact laidOut.sound_of_nest? found

theorem regular {n : Nest} (put : nest? ds = .ok n) : (outline ds).Regular := by
  obtain ⟨laidOut, found⟩ := outline_of_nest? put
  exact laidOut.regular_of_nest? found

end Declaration
end LoopNest
