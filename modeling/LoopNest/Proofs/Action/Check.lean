import Mathlib.Data.List.Forall2
import LoopNest.Action.Change
import LoopNest.Proofs.Nest.Sound

/-! What the parameters of a change mean. A name and a level stand for a loop of the nest, or else
for the loop at that level around a computation; the loops of an interchange must stand one around
the other, those of a fusion side by side. The checks of a change ask for just this. -/
namespace LoopNest

theorem Except.bind_eq_ok_iff {ε α β : Type} {x : Except ε α} {f : α → Except ε β} {b : β} :
    (x >>= f) = .ok b ↔ ∃ a, x = .ok a ∧ f a = .ok b := by
  cases x <;> simp [bind, Except.bind]

theorem Except.bind_eq_error_iff {ε α β : Type} {x : Except ε α} {f : α → Except ε β} {e : ε} :
    (x >>= f) = .error e ↔ x = .error e ∨ ∃ a, x = .ok a ∧ f a = .error e := by
  cases x <;> simp [bind, Except.bind]

theorem Except.map_eq_ok_iff {ε α β : Type} {x : Except ε α} {f : α → β} {b : β} :
    f <$> x = .ok b ↔ ∃ a, x = .ok a ∧ f a = b := by
  cases x <;> simp [Functor.map, Except.map]

theorem Except.pure_eq_ok_iff {ε α : Type} {a b : α} :
    (pure a : Except ε α) = .ok b ↔ b = a := by
  simp [pure, Except.pure, eq_comm]

theorem Except.mapError_eq_ok_iff {ε δ α : Type} {x : Except ε α} {f : ε → δ} {a : α} :
    x.mapError f = .ok a ↔ x = .ok a := by
  cases x <;> simp [Except.mapError]

theorem Except.mapError_eq_error_iff {ε δ α : Type} {x : Except ε α} {f : ε → δ} {d : δ} :
    x.mapError f = .error d ↔ ∃ e, x = .error e ∧ f e = d := by
  cases x <;> simp [Except.mapError]

theorem Except.exists_of_mem_mapM {ε α β : Type} {f : α → Except ε β} {xs : List α} {ys : List β}
    (read : xs.mapM f = .ok ys) : ∀ y ∈ ys, ∃ x ∈ xs, f x = .ok y := by
  induction xs generalizing ys with
  | nil =>
    rw [List.mapM_nil, Except.pure_eq_ok_iff] at read
    exact fun y mem => absurd (read ▸ mem) List.not_mem_nil
  | cons x xs ih =>
    simp only [List.mapM_cons, Except.bind_eq_ok_iff, Except.pure_eq_ok_iff] at read
    obtain ⟨y, first, ys, rest, rfl⟩ := read
    rw [List.forall_mem_cons]
    refine ⟨⟨x, List.mem_cons_self, first⟩, fun z mem => ?_⟩
    obtain ⟨w, memW, back⟩ := ih rest z mem
    exact ⟨w, List.mem_cons_of_mem _ memW, back⟩

namespace Nest

open Forest

/-- One loop stands around another. -/
def Around (n : Nest) (a b : LoopId) : Prop :=
  ∃ outer t, Way n.loops outer t ∧ t.loop.name = b.name ∧ a.name ∈ outer.map Loop.name

/-- Two loops stand directly inside one loop, or both are outermost. -/
def Beside (n : Nest) (a b : LoopId) : Prop :=
  ∃ outer s t, Way n.loops outer s ∧ Way n.loops outer t ∧ s.loop.name = a.name ∧
    t.loop.name = b.name

/-- What a name and a level stand for: a loop of the nest, or else the loop at that level around
the computation of that name. -/
def Refers (n : Nest) (id found : LoopId) : Prop :=
  (n.Holds id ∧ found = id) ∨
    (¬n.Holds id ∧ ∃ outer t loop, Way n.loops outer t ∧ id.name ∈ t.computations ∧
      (outer ++ [t.loop])[id.level]? = some loop ∧ found = ⟨loop.name, id.level⟩)

variable {n : Nest}

theorem Placed.resolve_eq_ok_iff (h : n.Placed) {id found : LoopId} :
    n.resolve id = .ok found ↔ n.Refers id found := by
  by_cases known : n.contains id = true
  · have holds : n.Holds id := h.contains_iff.mp known
    simp only [resolve, known, if_true, Refers, holds, not_true_eq_false, true_and, false_and,
      or_false, Except.ok.injEq]
    exact eq_comm
  · have holds : ¬n.Holds id := fun holds => known (h.contains_iff.mpr holds)
    simp only [resolve, known, if_false, Refers, holds, not_false_eq_true, true_and, false_and,
      false_or, Bool.false_eq_true]
    constructor
    · intro resolved
      simp only [loopOf] at resolved
      split at resolved
      · cases resolved
      · next ids hids =>
        obtain ⟨outer, t, way, own, rfl⟩ := h.chain_eq_ok_iff.mp hids
        rw [Option.getD_some, getElem?_pathIds] at resolved
        cases at_level : (outer ++ [t.loop])[id.level]? with
        | none => simp [at_level] at resolved
        | some loop =>
          simp only [at_level, Option.map_some, Except.ok.injEq] at resolved
          exact ⟨outer, t, loop, way, own, at_level, resolved.symm⟩
    · rintro ⟨outer, t, loop, way, own, at_level, rfl⟩
      have chain := h.chain_eq_ok_iff.mpr ⟨outer, t, way, own, rfl⟩
      simp only [loopOf, chain, Option.getD_some, getElem?_pathIds, at_level, Option.map_some]

/-- What a name and a level stand for is a loop of the nest. -/
theorem Refers.holds {id found : LoopId} (refers : n.Refers id found) : n.Holds found := by
  rcases refers with ⟨holds, rfl⟩ | ⟨-, outer, t, loop, way, -, at_level, rfl⟩
  · exact holds
  · obtain ⟨before, s, leads, rfl, deep⟩ := way.exists_at at_level
    exact ⟨before, s, leads, rfl, deep⟩

theorem Placed.beside_of_parent_eq (h : n.Placed) {a b : LoopId} {e e' : Entry}
    (first : n.loop? a = some e) (second : n.loop? b = some e') (same : e.parent = e'.parent) :
    n.Beside a b := by
  obtain ⟨outer, s, way, nameA, -, rfl⟩ := h.loop?_eq_some_iff.mp first
  obtain ⟨outer', t, way', nameB, -, rfl⟩ := h.loop?_eq_some_iff.mp second
  simp only [entryAt, Option.or_none] at same
  have equal : outer = outer' := by
    rcases List.eq_nil_or_concat' outer with rfl | ⟨init, last, rfl⟩
    · rcases List.eq_nil_or_concat' outer' with rfl | ⟨init', last', rfl⟩
      · rfl
      · simp at same
    · rcases List.eq_nil_or_concat' outer' with rfl | ⟨init', last', rfl⟩
      · simp at same
      · have names : last.name = last'.name := by simpa using same
        obtain ⟨r, leads, rfl, -⟩ := way.split
        obtain ⟨r', leads', rfl, -⟩ := way'.split
        obtain ⟨rfl, rfl⟩ := leads.eq_of_name_eq h.names leads' names
        rfl
  subst equal
  exact ⟨outer, s, t, way, way', nameA, nameB⟩

theorem Placed.parent_eq_of_beside (h : n.Placed) {a b : LoopId} {e e' : Entry}
    (first : n.loop? a = some e) (second : n.loop? b = some e') (beside : n.Beside a b) :
    e.parent = e'.parent := by
  obtain ⟨outer, s, t, way, way', nameA, nameB⟩ := beside
  obtain ⟨outerA, s', wayA, sameA, -, rfl⟩ := h.loop?_eq_some_iff.mp first
  obtain ⟨outerB, t', wayB, sameB, -, rfl⟩ := h.loop?_eq_some_iff.mp second
  obtain ⟨rfl, -⟩ := wayA.eq_of_name_eq h.names way (sameA.trans nameA.symm)
  obtain ⟨rfl, -⟩ := wayB.eq_of_name_eq h.names way' (sameB.trans nameB.symm)
  rfl

end Nest

namespace Change

variable {n : Nest}

/-- What the loops of a change stand for, parameter by parameter; the rest stays. -/
def Refers (n : Nest) (c found : Change) : Prop :=
  c.form = found.form ∧ List.Forall₂ n.Refers c.loops found.loops ∧ c.factors = found.factors

/-- How the loops of a change must stand to each other. -/
def Compatible (n : Nest) : Change → Prop
  | interchange a b => a.level ≠ b.level ∧ (n.Around a b ∨ n.Around b a)
  | fusion a b => a.name ≠ b.name ∧ a.level = b.level ∧ n.Beside a b
  | _ => True

theorem Refers.holds {c found : Change} (refers : c.Refers n found) :
    ∀ id ∈ found.loops, n.Holds id := by
  obtain ⟨-, loops, -⟩ := refers
  generalize c.loops = ids at loops
  generalize found.loops = founds at loops
  induction loops with
  | nil => simp
  | cons first _ ih =>
    intro id mem
    rcases List.mem_cons.mp mem with rfl | mem
    · exact first.holds
    · exact ih id mem

theorem resolve_eq_ok_iff (h : n.Placed) {c found : Change} :
    c.resolve n = .ok found ↔ c.Refers n found := by
  cases c <;> cases found <;>
    simp [resolve, Refers, form, factors, loops, Except.bind_eq_ok_iff, Except.map_eq_ok_iff,
      h.resolve_eq_ok_iff, and_assoc]

theorem check_eq_ok_iff (h : n.Placed) {c : Change} (holds : ∀ id ∈ c.loops, n.Holds id) :
    c.check n = .ok () ↔ c.Compatible n := by
  cases c with
  | interchange a b =>
    have around (a b : LoopId) : n.encloses a.name b.name = true ↔ n.Around a b := h.encloses_iff
    simp only [check, Compatible]
    split
    · next same => simp [same]
    · next differ =>
      split
      · next encloses =>
        rw [Bool.or_eq_true, around, around] at encloses
        simp [differ, encloses]
      · next apart =>
        rw [Bool.or_eq_true, around, around] at apart
        simp [apart]
  | fusion a b =>
    have known {id : LoopId} (mem : id ∈ [a, b]) : ∃ e, n.loop? id = some e := by
      have contained := h.contains_iff.mpr (holds id mem)
      rwa [Nest.contains, Option.isSome_iff_exists] at contained
    obtain ⟨e, first⟩ := known (by simp : a ∈ [a, b])
    obtain ⟨e', second⟩ := known (by simp : b ∈ [a, b])
    simp only [check, Compatible, first, second]
    split
    · next same => simp [same]
    · next differ =>
      split
      · next levels => simp [levels]
      · next levels =>
        split
        · next parents =>
          have beside := h.beside_of_parent_eq first second parents
          simp [differ, beside, not_not.mp levels]
        · next parents =>
          have apart : ¬n.Beside a b := fun beside =>
            parents (h.parent_eq_of_beside first second beside)
          simp [apart]
  | _ => simp [check, Compatible]

end Change
end LoopNest
