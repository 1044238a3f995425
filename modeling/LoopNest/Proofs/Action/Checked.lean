import LoopNest.Action.Checked
import LoopNest.Proofs.Action.Rebind
import LoopNest.Proofs.Action.Tiled

/-! Checked arithmetic and arithmetic that wraps round agree as long as nothing leaves 64 bits. So
binding with checked arithmetic stops exactly at a tiling of a band with a loop whose tiles cannot be
counted within 64 bits, and else has the result of binding. -/
namespace LoopNest

/-- A checked computation stops in one case, and else has the result of the unchecked one. -/
structure StopsIf {α : Type} (case : Prop) (checked : Option α) (unchecked : α) : Prop where
  stops : case → checked = none
  agrees : ¬case → checked = some unchecked

namespace StopsIf

variable {α β : Type} {case case' : Prop} {checked : Option α} {unchecked : α}

theorem of_iff (stopsIf : StopsIf case checked unchecked) (same : case' ↔ case) :
    StopsIf case' checked unchecked :=
  ⟨fun stops => stopsIf.stops (same.mp stops), fun goes => stopsIf.agrees fun stops =>
    goes (same.mpr stops)⟩

theorem never (goes : ¬case) : StopsIf case (some unchecked) unchecked :=
  ⟨fun stops => absurd stops goes, fun _ => rfl⟩

/-- A computation that goes on where another ends stops if either does. -/
theorem bind (first : StopsIf case checked unchecked) {next : α → Option β} {result : β}
    (second : StopsIf case' (next unchecked) result) :
    StopsIf (case ∨ case') (checked.bind next) result := by
  by_cases stops : case
  · exact ⟨fun _ => by rw [first.stops stops, Option.bind_none], fun goes => absurd (.inl stops) goes⟩
  · rw [first.agrees stops, Option.bind_some]
    exact second.of_iff (or_iff_right stops)

theorem bind_some (first : StopsIf case checked unchecked) (f : α → β) :
    StopsIf case (checked.bind fun x => some (f x)) (f unchecked) :=
  ⟨fun stops => by rw [first.stops stops, Option.bind_none],
    fun goes => by rw [first.agrees goes, Option.bind_some]⟩

end StopsIf

variable {a b : Int64}

theorem word?_toInt (w : Int64) : word? w.toInt = some w := by
  rw [word?, if_pos (Text.fitsSigned_toInt w), Int64.ofInt_toInt]

theorem word?_eq_none {v : Int} (outside : ¬Text.fitsSigned v = true) : word? v = none :=
  if_neg outside

theorem word?_add (fits : Text.fitsSigned (a.toInt + b.toInt) = true) :
    word? (a.toInt + b.toInt) = some (a + b) := by
  rw [← toInt_add fits, word?_toInt]

theorem word?_sub (fits : Text.fitsSigned (a.toInt - b.toInt) = true) :
    word? (a.toInt - b.toInt) = some (a - b) := by
  rw [← toInt_sub fits, word?_toInt]

theorem word?_tdiv (nonneg : 0 ≤ a.toInt) (positive : 0 < b.toInt) :
    word? (a.toInt.tdiv b.toInt) = some (a / b) := by
  rw [Int.tdiv_eq_ediv_of_nonneg nonneg, ← toInt_div nonneg positive, word?_toInt]

theorem tileCountChecked_concrete {l : Loop} {low high : Int64} {size : Factor}
    (lower : l.lower = .concrete low) (upper : l.upper = .concrete high)
    (fits : ¬l.Overflows size) : tileCountChecked l size = some (tileCount l size) := by
  obtain ⟨extent, sum⟩ := (not_overflows_iff lower upper).mp fits
  have nonneg : 0 ≤ (max (high - low) 0).toInt := by
    rw [toInt_extent extent]
    exact Int.le_max_right _ _
  have positive : 0 < size.word.toInt := by
    rw [size.toInt_word]
    exact Int.natCast_pos.mpr size.pos
  rw [← toInt_extent extent, ← size.toInt_word] at sum
  have dividend : 0 ≤ (max (high - low) 0 + size.word - 1).toInt := by
    rw [toInt_dividend nonneg sum]
    have := size.pos
    omega
  have last := word?_sub (fits_dividend nonneg sum)
  rw [Int64.toInt_one] at last
  simp only [tileCountChecked, tileCount, Loop.extent?, upper, lower, word?_sub extent,
    word?_add sum, last, word?_tdiv dividend positive, bind, Option.bind_some, pure]

/-- Of the operations of a tile count only the first two can leave 64 bits. -/
theorem tileCountChecked_eq_none {l : Loop} {size : Factor} (stops : l.Overflows size) :
    tileCountChecked l size = none := by
  obtain ⟨low, high, lower, upper, outside⟩ := stops
  by_cases extent : Text.fitsSigned (high.toInt - low.toInt) = true
  · have sum : ¬Text.fitsSigned ((max (high - low) 0).toInt + size.word.toInt) = true := by
      rw [toInt_extent extent, size.toInt_word]
      exact fun sum => outside ⟨extent, sum⟩
    simp only [tileCountChecked, upper, lower, word?_sub extent, word?_eq_none sum, bind,
      Option.bind_some, Option.bind_none]
  · simp only [tileCountChecked, upper, lower, word?_eq_none extent, bind, Option.bind_none]

theorem stopsIf_tileCountChecked (l : Loop) (size : Factor) :
    StopsIf (l.Overflows size) (tileCountChecked l size) (tileCount l size) where
  stops := tileCountChecked_eq_none
  agrees fits := by
    cases upper : l.upper with
    | symbolic text => simp only [tileCountChecked, upper]
    | concrete high =>
      cases lower : l.lower with
      | symbolic text => simp only [tileCountChecked, upper, lower]
      | concrete low => exact tileCountChecked_concrete lower upper fits

/-- As many iterations as there are positive numbers, in tiles of 2. -/
example :
    let l : Loop := { name := "i", lower := .concrete 0, upper := .concrete 9223372036854775807 }
    let size : Factor := ⟨2, by decide, by decide⟩
    tileCount l size = .concrete (-4611686018427387904) ∧ tileCountChecked l size = none := by
  decide

theorem stopsIf_tileLoopsChecked (taken : List String) (band : List (Loop × Factor)) :
    StopsIf (∃ part ∈ band, part.1.Overflows part.2) (tileLoopsChecked taken band)
      (tileLoops taken band) := by
  induction band generalizing taken with
  | nil => exact .never (by simp)
  | cons part band ih =>
    have rest := ih ((tileLoop taken part.1 part.2).name :: taken)
    refine .of_iff (.bind (stopsIf_tileCountChecked part.1 part.2) (rest.bind_some _)) ?_
    exact List.exists_mem_cons_iff _ _ _

namespace Nest

variable {n : Nest}

theorem exists_overflows_iff {band : List (LoopId × Factor)} {parts : List (Loop × Factor)}
    (looked : List.Forall₂ n.Part band parts) :
    (∃ part ∈ parts, part.1.Overflows part.2) ↔
      ∃ part ∈ band, ∃ e, n.loop? part.1 = some e ∧ e.loop.Overflows part.2 := by
  induction looked with
  | nil => simp
  | cons first _ ih =>
    obtain ⟨e, found, rfl⟩ := first
    simp [found, ih]

theorem Placed.stopsIf_tileChecked (h : n.Placed) {band : List (LoopId × Factor)}
    (holds : ∀ part ∈ band, n.Holds part.1) :
    StopsIf
      (((sortBy (fun part => part.1.level) band).map Prod.fst).IsChain n.Within ∧
        ∃ part ∈ sortBy (fun part => part.1.level) band, ∃ e, n.loop? part.1 = some e ∧
          e.loop.Overflows part.2)
      (n.tileChecked band) (n.tile band) := by
  have holdsSorted : ∀ part ∈ sortBy (fun part => part.1.level) band, n.Holds part.1 :=
    fun part mem => holds part (mem_sortBy.mp mem)
  by_cases linked : n.isBand ((sortBy (fun part => part.1.level) band).map Prod.fst) = true
  · obtain ⟨parts, found, -⟩ := h.bandLoops holdsSorted
    have looked := h.forall₂_bandLoops holdsSorted found
    have chain := h.chain_of_isBand linked
    refine .of_iff ?_
      ((and_iff_right chain).trans (exists_overflows_iff looked).symm)
    cases parts with
    | nil =>
      simp only [tileChecked, Nest.tile, linked, if_true, found]
      exact .never (by simp)
    | cons first rest =>
      simp only [tileChecked, Nest.tile, linked, if_true, found]
      exact (stopsIf_tileLoopsChecked n.loops.names (first :: rest)).bind_some _
  · have apart : ¬((sortBy (fun part => part.1.level) band).map Prod.fst).IsChain n.Within :=
      fun chain => linked (h.isBand_of_chain (List.forall_mem_map.mpr holdsSorted) chain)
    simp only [tileChecked, Nest.tile, linked]
    exact .never fun stops => apart stops.1

end Nest

namespace Change

/-- A change is a tiling of a band with a loop whose tiles cannot be counted within 64 bits. -/
def Overflows (n : Nest) (c : Change) : Prop :=
  (c.form = .tiling2D ∨ c.form = .tiling3D) ∧ (c.band.map Prod.fst).IsChain n.Within ∧
    ∃ part ∈ c.band, ∃ e, n.loop? part.1 = some e ∧ e.loop.Overflows part.2

theorem stopsIf_applyChecked {n : Nest} (h : n.Placed) {c : Change}
    (holds : ∀ id ∈ c.loops, n.Holds id) :
    StopsIf (c.Overflows n) (c.applyChecked n) (c.apply n) := by
  cases c with
  | tiling2D a b s t =>
    refine (h.stopsIf_tileChecked (by simpa [loops] using holds)).of_iff ?_
    exact and_iff_right (.inl rfl)
  | tiling3D a b c s t u =>
    refine (h.stopsIf_tileChecked (by simpa [loops] using holds)).of_iff ?_
    exact and_iff_right (.inr rfl)
  | _ => exact .never (by simp [Overflows, form])

theorem overflows_resolved_iff {n : Nest} (h : n.Placed) {c found : Change}
    (refers : c.Refers n found) :
    (∃ change, c.Refers n change ∧ change.Overflows n) ↔ found.Overflows n := by
  constructor
  · rintro ⟨other, refers', stops⟩
    have same := (resolve_eq_ok_iff h).mpr refers'
    rw [(resolve_eq_ok_iff h).mpr refers] at same
    cases same
    exact stops
  · exact fun stops => ⟨found, refers, stops⟩

end Change

namespace Action

variable {n : Nest} {a : Action}

theorem bind_eq_prepare (n : Nest) (a : Action) :
    a.bind n = (do
      let (change, targets, rendering) ← a.prepare n
      let nest ← finish change.form (change.apply n)
      return { a with change, binding := some { nest, targets, rendering } }) := by
  simp only [bind, bindChange, prepare, bind_assoc, pure_bind]

theorem prepare_eq_ok_iff (h : n.Placed) {change : Change} {targets : List String}
    {rendering : Rendering} :
    a.prepare n = .ok (change, targets, rendering) ↔
      a.change.Refers n change ∧ change.Compatible n ∧
        findTargets n change a.explicit = .ok targets ∧
        change.render n targets = .ok rendering := by
  simp only [prepare, Except.bind_eq_ok_iff, Except.pure_eq_ok_iff, Except.mapError_eq_ok_iff]
  constructor
  · rintro ⟨_, resolved, _, checked, _, found, _, rendered, same⟩
    cases same
    have refers := (Change.resolve_eq_ok_iff h).mp resolved
    exact ⟨refers, (Change.check_eq_ok_iff h refers.holds).mp checked, found, rendered⟩
  · rintro ⟨refers, fits, found, rendered⟩
    exact ⟨change, (Change.resolve_eq_ok_iff h).mpr refers, (),
      (Change.check_eq_ok_iff h refers.holds).mpr fits, targets, found, rendering, rendered, rfl⟩

/-- Binding with checked arithmetic stops exactly if the action fits and its loops make a band of
which one loop's tiles cannot be counted within 64 bits. Else it is as binding is. -/
theorem stopsIf_bindChecked (h : n.Placed) (a : Action) :
    StopsIf (a.Fits n ∧ ∃ change, a.change.Refers n change ∧ change.Overflows n)
      (a.bindChecked n) (a.bind n) := by
  cases prepared : a.prepare n with
  | error e =>
    have fails : a.bind n = .error e := by
      rw [bind_eq_prepare, prepared]
      rfl
    have unfit : ¬a.Fits n := by
      rw [← bind_ok_iff_fits h, fails]
      simp
    simp only [bindChecked, prepared, fails]
    exact .never fun stops => unfit stops.1
  | ok steps =>
    obtain ⟨change, targets, rendering⟩ := steps
    obtain ⟨refers, fits, found, rendered⟩ := (prepare_eq_ok_iff h).mp prepared
    have whole : a.Fits n :=
      ⟨⟨change, refers, fits⟩, (findTargets_ok_iff h refers.holds).mp ⟨targets, found⟩⟩
    rw [bind_eq_prepare, prepared]
    simp only [bindChecked, prepared]
    refine ((Change.stopsIf_applyChecked h refers.holds).bind_some _).of_iff ?_
    exact (and_iff_right whole).trans (Change.overflows_resolved_iff h refers)

/-- An action whose loops are loops of the nest stops, where it binds, exactly if it is a tiling of a
band with a loop whose tiles cannot be counted within 64 bits. -/
theorem stopsIf_bindChecked_of_bind (h : n.Placed) (holds : ∀ id ∈ a.change.loops, n.Holds id)
    {bound : Action} (binds : a.bind n = .ok bound) :
    StopsIf (a.change.Overflows n) (a.bindChecked n) (.ok bound) := by
  have whole : a.Fits n := (bind_ok_iff_fits h).mp ⟨bound, binds⟩
  refine (binds ▸ stopsIf_bindChecked h a).of_iff ?_
  rw [and_iff_right whole, Change.overflows_resolved_iff h (Change.refers_self holds)]

end Action

end LoopNest
