import Mathlib
import LoopNest.Declaration
import LoopNest.Proofs.Action.Bind
import LoopNest.Proofs.Declaration.Sound
import LoopNest.Proofs.Description.Sound

/-! Reachable nests: those that are loaded or declared, and those that a bound action leaves behind.
Loading and declaring give sound nests, and binding keeps them sound, so every reachable nest is
sound, however many actions have been bound on the way. -/
namespace LoopNest

/-- A nest that is described or declared, or that an action bound to such a nest gives. -/
inductive Reachable : Nest → Prop where
  | described {d : Description} {n : Nest} (loaded : d.nest? = .ok n) : Reachable n
  | declared {ds : List Declaration} {n : Nest} (put : Declaration.nest? ds = .ok n) : Reachable n
  | bound {n m : Nest} {a bound : Action} (before : Reachable n) (binds : a.bind n = .ok bound)
    (changed : bound.nest? = some m) : Reachable m

/-- An action bound to a placed nest leaves a sound one. -/
theorem Action.sound_of_bind {n m : Nest} {a bound : Action} (h : n.Placed)
    (binds : a.bind n = .ok bound) (changed : bound.nest? = some m) : m.Sound := by
  obtain ⟨change, targets, rendering, left, refers, fits, -, -, applied, rfl⟩ :=
    (bind_eq_ok_iff h).mp binds
  obtain ⟨left', applied', placed, -⟩ := h.apply refers.holds fits
  rw [applied] at applied'
  cases applied'
  have same : left.renumber = m := by simpa [nest?] using changed
  rw [← same]
  exact placed.renumber

namespace Reachable

variable {n : Nest}

theorem sound (reached : Reachable n) : n.Sound := by
  induction reached with
  | described loaded => exact Description.sound loaded
  | declared put => exact Declaration.sound put
  | bound _ binds changed ih => exact Action.sound_of_bind ih.toPlaced binds changed

theorem placed (reached : Reachable n) : n.Placed := reached.sound.toPlaced

/-- Written down by names, a reachable nest has no fault, all its names, lists and ranks are in
order, and it can be read back. The same holds of the outlines by which it may have been loaded or
put down. -/
theorem outline_regular (reached : Reachable n) :
    n.outline.Regular ∧ n.outline.nest? = .ok n ∧
      (∀ d : Description, d.nest? = .ok n → d.outline.Regular) ∧
      ∀ ds, Declaration.nest? ds = .ok n → (Declaration.outline ds).Regular := by
  have regular := reached.sound.regular
  have same := reached.placed.nest_outline
  exact ⟨regular, Outline.nest?_eq_ok_iff.mpr ⟨regular.faultless, same⟩,
    fun _ => Description.regular, fun _ => Declaration.regular⟩

end Reachable

/-- Two stages of a blur: rows first, then columns. -/
def blur : Description where
  name := "blur"
  loops := [
    { name := "y", level := 0, upper := .concrete 64 },
    { name := "x", level := 1, upper := .concrete 64, parent := some "y" },
    { name := "v", level := 0, upper := .concrete 64 },
    { name := "u", level := 1, upper := .concrete 64, parent := some "v" }]
  computations := [
    { name := "rows", order := 0, loops := ["y", "x"] },
    { name := "columns", order := 1, loops := ["v", "u"] }]

def blurNest : Nest where
  loops :=
    .cons { name := "y", lower := .concrete 0, upper := .concrete 64 } []
      (.cons { name := "x", lower := .concrete 0, upper := .concrete 64 } ["rows"] .nil .nil) <|
    .cons { name := "v", lower := .concrete 0, upper := .concrete 64 } []
      (.cons { name := "u", lower := .concrete 0, upper := .concrete 64 } ["columns"] .nil .nil)
      .nil
  computations := [⟨"rows", ""⟩, ⟨"columns", ""⟩]

theorem nest?_blur : blur.nest? = .ok blurNest := by cbv

theorem reachable_blur : Reachable blurNest := .described nest?_blur

/-- Tiles the loops of the first stage. -/
def tileRows : Action where
  change := .tiling2D ⟨"y", 0⟩ ⟨"x", 1⟩ ⟨8, by decide, by decide⟩ ⟨16, by decide, by decide⟩

def tiledNest : Nest where
  loops :=
    .cons { name := "y_tile", lower := .concrete 0, upper := .concrete 8 } []
      (.cons { name := "x_tile", lower := .concrete 0, upper := .concrete 4 } []
        (.cons { name := "y", lower := .concrete 0, upper := .concrete 64 } []
          (.cons { name := "x", lower := .concrete 0, upper := .concrete 64 } ["rows"] .nil .nil)
          .nil)
        .nil) <|
    .cons { name := "v", lower := .concrete 0, upper := .concrete 64 } []
      (.cons { name := "u", lower := .concrete 0, upper := .concrete 64 } ["columns"] .nil .nil)
      .nil
  computations := [⟨"rows", ""⟩, ⟨"columns", ""⟩]

def tiledRows : Binding where
  nest := tiledNest
  targets := ["rows"]
  rendering := {
    program := "rows.tile(0, 1, 8, 16);\n" ++ clearStatement ++ "rows.then(columns,-1);\n"
    signature := "T2(L0,L1,8,16,comps=['rows'])"
    legality := "rows.tile(0, 1, 8, 16);\n" ++ clearStatement ++ "rows.then(columns,-1);\n" }

theorem bind_tileRows :
    tileRows.bind blurNest = .ok { tileRows with binding := some tiledRows } := by
  cbv

theorem outline_regular_tiledNest : tiledNest.outline.Regular :=
  (Reachable.outline_regular (.bound reachable_blur bind_tileRows rfl)).1

def parted : List Declaration := [
  .loop ⟨"i", none, .concrete 0, .concrete 10⟩,
  .loop ⟨"a", some "i", .concrete 0, .concrete 10⟩,
  .loop ⟨"b", some "i", .concrete 0, .concrete 10⟩,
  .computation ⟨"s0", "a", ""⟩, .computation ⟨"s", "i", ""⟩, .computation ⟨"s1", "b", ""⟩]

def partedNest : Nest where
  loops :=
    .cons { name := "i", lower := .concrete 0, upper := .concrete 10 } ["s"]
      (.cons { name := "a", lower := .concrete 0, upper := .concrete 10 } ["s0"] .nil <|
        .cons { name := "b", lower := .concrete 0, upper := .concrete 10 } ["s1"] .nil .nil)
      .nil
  computations := [⟨"s0", ""⟩, ⟨"s", ""⟩, ⟨"s1", ""⟩]

theorem nest?_parted : Declaration.nest? parted = .ok partedNest := by cbv

theorem reachable_parted : Reachable partedNest := .declared nest?_parted

end LoopNest
