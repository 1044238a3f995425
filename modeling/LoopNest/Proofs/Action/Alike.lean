import LoopNest.Proofs.Action.Levels
import LoopNest.Proofs.Action.Signature
import LoopNest.Proofs.Nest.Inside

/-! Changes that are alike: of one form, at the same levels, with the same numbers and the same
targets. The backend is told the same of both. They are one change if their loops have computations
in common, position by position; and what marks loops or exchanges two does the same with either
loops. -/
namespace LoopNest

open Forest

namespace Forest

theorem eq_of_leadsTo {f : Forest} (unique : f.names.Nodup) {name : String} {own : List String}
    (leads : f.leadsTo name own = true) {outer outer' : List Loop} {s t : Tree}
    (way : Way f outer s) (named : s.loop.name = name) (way' : Way f outer' t)
    (level : outer.length = outer'.length) : s = t := by
  induction f generalizing own outer outer' with
  | nil => cases way
  | cons loop inner body rest ih _ =>
    cases rest with
    | cons => cases leads
    | nil =>
      cases way with
      | beside way => cases way
      | here =>
        cases way' with
        | here => rfl
        | beside way' => cases way'
        | inside => cases level
      | inside way =>
        cases way' with
        | here => cases level
        | beside way' => cases way'
        | inside way' =>
          obtain ⟨absent, -, uniqueBody, -⟩ := nodup_names_cons.mp unique
          have below : loop.name ≠ name := fun same => absent (same ▸ named ▸ way.mem_names)
          simp only [leadsTo, beq_eq_false_iff_ne.mpr below, Bool.false_or,
            Bool.and_eq_true] at leads
          exact ih uniqueBody leads.2 way way' (Nat.succ.inj level)

end Forest

namespace Nest

variable {n : Nest} {a b : LoopId}

def Common (n : Nest) (a b : LoopId) : Prop :=
  ∃ under under' c, n.computationsUnder a = .ok under ∧ n.computationsUnder b = .ok under' ∧
    c ∈ under ∧ c ∈ under'

theorem Placed.eq_of_common (h : n.Placed) (common : n.Common a b) (level : a.level = b.level) :
    a = b := by
  obtain ⟨under, under', c, foundA, foundB, memA, memB⟩ := common
  obtain ⟨outer, s, way, nameA, deepA, rfl⟩ := h.computationsUnder_eq_ok_iff.mp foundA
  obtain ⟨outer', t, way', nameB, deepB, rfl⟩ := h.computationsUnder_eq_ok_iff.mp foundB
  rw [sortByRank, mem_sortBy] at memA memB
  obtain ⟨path, chain⟩ := h.exists_chain? (h.under_subset way memA)
  obtain ⟨after, pathA⟩ := h.exists_after chain way ((h.mem_under_iff chain way).mp memA)
  obtain ⟨after', pathB⟩ := h.exists_after chain way' ((h.mem_under_iff chain way').mp memB)
  have lengths : outer.length = outer'.length := deepA.trans (level.trans deepB.symm)
  have loops : s.loop = t.loop :=
    (List.cons.inj (List.append_inj (pathA.symm.trans pathB) lengths).2).1
  exact LoopId.ext (nameA.symm.trans (loops ▸ nameB)) level

theorem Placed.crossing (h : n.Placed) {a b a' b' : LoopId} {A B A' B' : List String}
    (foundA : n.computationsUnder a = .ok A) (foundB : n.computationsUnder b = .ok B)
    (foundA' : n.computationsUnder a' = .ok A') (foundB' : n.computationsUnder b' = .ok B')
    (differ : a ≠ b) (level : a.level = b.level) (levelA : a.level = a'.level)
    (levelB : a.level = b'.level) (held : ∀ x, x ∈ A ∨ x ∈ B → x ∈ A' ∨ x ∈ B') {x y : String}
    (cross : (x ∈ A ∧ y ∈ B) ∨ (x ∈ B ∧ y ∈ A)) : (x ∈ A' ∧ y ∈ B') ∨ (x ∈ B' ∧ y ∈ A') := by
  have one {x y : String} (memA : x ∈ A) (memB : y ∈ B) :
      (x ∈ A' ∧ y ∈ B') ∨ (x ∈ B' ∧ y ∈ A') := by
    rcases held x (.inl memA) with inA | inB <;> rcases held y (.inr memB) with inA' | inB'
    · have first := h.eq_of_common ⟨A, A', x, foundA, foundA', memA, inA⟩ levelA
      have second := h.eq_of_common ⟨B, A', y, foundB, foundA', memB, inA'⟩ (level ▸ levelA)
      exact absurd (first.trans second.symm) differ
    · exact .inl ⟨inA, inB'⟩
    · exact .inr ⟨inB, inA'⟩
    · have first := h.eq_of_common ⟨A, B', x, foundA, foundB', memA, inB⟩ levelB
      have second := h.eq_of_common ⟨B, B', y, foundB, foundB', memB, inB'⟩ (level ▸ levelB)
      exact absurd (first.trans second.symm) differ
  rcases cross with ⟨memA, memB⟩ | ⟨memB, memA⟩
  · exact one memA memB
  · exact (one memA memB).symm.imp And.symm And.symm

theorem Placed.eq_of_swappable (h : n.Placed) {outer inner inner' : LoopId}
    (swaps : n.swappable outer inner = true) (holds : n.Holds inner) (holds' : n.Holds inner')
    (around : n.Around outer inner) (around' : n.Around outer inner')
    (level : inner.level = inner'.level) : inner = inner' := by
  cases found : n.loops.find? outer.name with
  | none => simp [swappable, found] at swaps
  | some t =>
    simp only [swappable, found] at swaps
    obtain ⟨mem, named⟩ := (find?_eq_some_iff h.names).mp found
    obtain ⟨above, leads⟩ := exists_way mem
    obtain ⟨between, s, below, name, deep⟩ := h.exists_between leads named holds around
    obtain ⟨between', s', below', name', deep'⟩ := h.exists_between leads named holds' around'
    have lengths : between.length = between'.length := by omega
    have unique : t.body.names.Nodup := (List.nodup_cons.mp (leads.names_sublist.nodup h.names)).2
    have same := eq_of_leadsTo unique swaps below name below' lengths
    exact LoopId.ext (name.symm.trans (same ▸ name')) level

theorem interchange_eq_self {outer inner : LoopId} (less : outer.level < inner.level)
    (branches : ¬n.swappable outer inner = true) :
    n.interchange outer inner = .ok n ∧ n.interchange inner outer = .ok n := by
  simp [interchange, less, Nat.lt_asymm less, branches]

/-- Exchanging a loop with either of two loops of one level inside it gives the same nest. -/
theorem Placed.interchange_eq (h : n.Placed) {outer inner inner' : LoopId} (holds : n.Holds outer)
    (holdsI : n.Holds inner) (holdsI' : n.Holds inner') (around : n.Around outer inner)
    (around' : n.Around outer inner') (level : inner.level = inner'.level) :
    n.interchange outer inner = n.interchange outer inner' ∧
      n.interchange inner outer = n.interchange inner' outer := by
  by_cases same : inner = inner'
  · subst same
    exact ⟨rfl, rfl⟩
  · have less := h.level_of_around holds holdsI around
    have branches : ¬n.swappable outer inner = true := fun swaps =>
      same (h.eq_of_swappable swaps holdsI holdsI' around around' level)
    have branches' : ¬n.swappable outer inner' = true := fun swaps =>
      same (h.eq_of_swappable swaps holdsI' holdsI around' around level.symm).symm
    obtain ⟨first, second⟩ := interchange_eq_self less branches
    obtain ⟨first', second'⟩ := interchange_eq_self (level ▸ less) branches'
    exact ⟨first.trans first'.symm, second.trans second'.symm⟩

end Nest

namespace Change

variable {n : Nest} {c d : Change}

theorem targets_subset (h : n.Placed) {targets : List String} (found : c.targets n = .ok targets) :
    targets ⊆ n.order := by
  have under {id : LoopId} {cs : List String} (found : n.computationsUnder id = .ok cs) :
      cs ⊆ n.order := by
    obtain ⟨outer, t, way, -, -, rfl⟩ := h.computationsUnder_eq_ok_iff.mp found
    exact fun x mem => h.under_subset way (mem_sortBy.mp mem)
  by_cases fuses : c.form = .fusion
  · cases c with
    | fusion a b =>
      simp only [Change.targets, Except.bind_eq_ok_iff, Except.pure_eq_ok_iff] at found
      obtain ⟨underA, foundA, underB, foundB, rfl⟩ := found
      intro x mem
      rcases List.mem_append.mp (mem_sortBy.mp mem) with mem | mem
      · exact under foundA mem
      · exact under foundB mem
    | _ => cases fuses
  · obtain ⟨id, least⟩ := exists_outermost? c
    exact under (targets_of_outermost fuses least ▸ found)

theorem signature_of_render {targets : List String} {rendering : Rendering}
    (rendered : c.render n targets = .ok rendering) :
    rendering.signature = c.signature targets := by
  obtain ⟨text, -, made⟩ := Except.bind_eq_ok_iff.mp rendered
  rw [← Except.ok.inj made]

theorem adjustSharings_of_ne (apart : c.form ≠ .fusion) (order : List String)
    (levels : List Sharing) : c.adjustSharings n order levels = .ok levels := by
  cases c with
  | fusion a b => exact absurd rfl apart
  | _ => rfl

theorem interchange_eq_of_outermost (h : n.Placed) {a b a' b' : LoopId}
    (holds : n.Holds a ∧ n.Holds b) (holds' : n.Holds a' ∧ n.Holds b')
    (nested : n.Around a b ∨ n.Around b a) (nested' : n.Around a' b' ∨ n.Around b' a')
    (levelA : a.level = a'.level) (levelB : b.level = b'.level)
    (outermost : outermost? [a, b] = outermost? [a', b']) :
    n.interchange a b = n.interchange a' b' := by
  rcases nested with around | around
  · have less := h.level_of_around holds.1 holds.2 around
    have around' : n.Around a' b' := nested'.resolve_right fun other => by
      have := h.level_of_around holds'.2 holds'.1 other
      omega
    obtain rfl : a = a' := by
      simpa [outermost?, Nat.lt_asymm less, ← levelA, ← levelB] using outermost
    exact (h.interchange_eq holds.1 holds.2 holds'.2 around around' levelB).1
  · have less := h.level_of_around holds.2 holds.1 around
    have around' : n.Around b' a' := nested'.resolve_left fun other => by
      have := h.level_of_around holds'.1 holds'.2 other
      omega
    obtain rfl : b = b' := by
      simpa [outermost?, less, ← levelA, ← levelB] using outermost
    exact (h.interchange_eq holds.2 holds.1 holds'.1 around around' levelA).2

/-- Two changes that a backend is told the same of. -/
structure Alike (n : Nest) (c d : Change) : Prop where
  form : c.form = d.form
  levels : c.loops.map LoopId.level = d.loops.map LoopId.level
  factors : c.factors = d.factors
  targets : c.targets n = d.targets n

namespace Alike

theorem statement_eq (alike : Alike n c d) : c.statement = d.statement := by
  obtain ⟨form, levels, factors, -⟩ := alike
  have method : c.method? = d.method? := by
    cases c <;> cases d <;> cases form <;>
      simp_all [loops, Change.factors, method?]
  funext computation
  rw [statement, statement, method]

theorem eq_of_loops_eq (alike : Alike n c d) (same : c.loops = d.loops) : c = d := by
  obtain ⟨form, -, factors, -⟩ := alike
  cases c <;> cases d <;> cases form <;> simp_all [loops, Change.factors]

theorem eq_of_common (alike : Alike n c d) (h : n.Placed)
    (common : List.Forall₂ n.Common c.loops d.loops) : c = d := by
  refine alike.eq_of_loops_eq ?_
  have levels := alike.levels
  generalize c.loops = ids at common levels
  generalize d.loops = ids' at common levels
  induction common with
  | nil => rfl
  | cons here _ ih =>
    rw [List.map_cons, List.map_cons, List.cons.injEq] at levels
    rw [h.eq_of_common here levels.1, ih levels.2]

theorem outermost?_eq (alike : Alike n c d) (h : n.Placed) (holds : ∀ id ∈ c.loops, n.Holds id)
    (apart : c.form ≠ .fusion) (busy : c.targets n ≠ .ok []) :
    outermost? c.loops = outermost? d.loops := by
  obtain ⟨a, leastA⟩ := exists_outermost? c
  obtain ⟨b, leastB⟩ := exists_outermost? d
  have under := alike.targets
  rw [targets_of_outermost apart leastA] at busy under
  rw [targets_of_outermost (alike.form ▸ apart) leastB] at under
  obtain ⟨cs, found⟩ := h.computationsUnder_ok (holds a (outermost?_mem leastA))
  rw [found] at busy under
  obtain ⟨x, mem⟩ := List.exists_mem_of_ne_nil cs fun empty => busy (congrArg _ empty)
  have least {ids ids' : List LoopId} {a b : LoopId} (levels : ids.map LoopId.level =
      ids'.map LoopId.level) (first : outermost? ids = some a) (second : outermost? ids' = some b) :
      b.level ≤ a.level := by
    have mem : a.level ∈ ids'.map LoopId.level :=
      levels ▸ List.mem_map_of_mem (outermost?_mem first)
    obtain ⟨id, mem, same⟩ := List.mem_map.mp mem
    exact same ▸ outermost?_le second id mem
  have level : a.level = b.level :=
    Nat.le_antisymm (least alike.levels.symm leastB leastA) (least alike.levels leastA leastB)
  rw [leastA, leastB, h.eq_of_common ⟨cs, cs, x, found, under.symm, mem, mem⟩ level]

/-- Two fusions correct the levels of the same neighbours. -/
theorem adjustSharings_eq_of_fusion {a b a' b' : LoopId}
    (alike : Alike n (fusion a b) (fusion a' b')) (h : n.Placed)
    (holds : ∀ id ∈ [a, b], n.Holds id) (holds' : ∀ id ∈ [a', b'], n.Holds id)
    (fits : (fusion a b).Compatible n) (fits' : (fusion a' b').Compatible n)
    (order : List String) (levels : List Sharing) :
    (fusion a b).adjustSharings n order levels = (fusion a' b').adjustSharings n order levels := by
  obtain ⟨A, foundA⟩ := h.computationsUnder_ok (holds a (by simp))
  obtain ⟨B, foundB⟩ := h.computationsUnder_ok (holds b (by simp))
  obtain ⟨A', foundA'⟩ := h.computationsUnder_ok (holds' a' (by simp))
  obtain ⟨B', foundB'⟩ := h.computationsUnder_ok (holds' b' (by simp))
  obtain ⟨differ, level, -⟩ := fits
  obtain ⟨differ', level', -⟩ := fits'
  obtain ⟨levelA, levelB⟩ : a.level = a'.level ∧ b.level = b'.level := by
    simpa [loops] using alike.levels
  have together (x : String) : x ∈ A ∨ x ∈ B ↔ x ∈ A' ∨ x ∈ B' := by
    have targets := alike.targets
    simp only [Change.targets, foundA, foundB, foundA', foundB'] at targets
    have lists := congrArg (x ∈ ·) (Except.ok.inj targets)
    simpa only [Nest.sortByRank, mem_sortBy, List.mem_append, eq_iff_iff] using lists
  have apart : a ≠ b := fun same => differ (congrArg LoopId.name same)
  have apart' : a' ≠ b' := fun same => differ' (congrArg LoopId.name same)
  have across (x y : String) :
      (x ∈ A ∧ y ∈ B) ∨ (x ∈ B ∧ y ∈ A) ↔ (x ∈ A' ∧ y ∈ B') ∨ (x ∈ B' ∧ y ∈ A') :=
    ⟨h.crossing foundA foundB foundA' foundB' apart level levelA (level.trans levelB)
      fun x => (together x).mp,
    h.crossing foundA' foundB' foundA foundB apart' level' levelA.symm (level'.trans levelB.symm)
      fun x => (together x).mpr⟩
  simp only [adjustSharings, foundA, foundB, foundA', foundB', ← levelA, bind, Except.bind,
    Bool.or_eq_true, Bool.and_eq_true, List.contains_iff_mem, across]

section Bound

variable (alike : Alike n c d) (h : n.Placed) (holds : ∀ id ∈ c.loops, n.Holds id)
  (holds' : ∀ id ∈ d.loops, n.Holds id) (fits : c.Compatible n) (fits' : d.Compatible n)

include alike h holds holds' fits fits'

theorem levels_eq (targets : List String) : c.levels n targets = d.levels n targets := by
  have adjusted (order : List String) (levels : List Sharing) :
      c.adjustSharings n order levels = d.adjustSharings n order levels := by
    have form := alike.form
    by_cases fuses : c.form = .fusion
    · cases c with
      | fusion a b =>
        cases d with
        | fusion a' b' => exact adjustSharings_eq_of_fusion alike h holds holds' fits fits' _ _
        | _ => cases form
      | _ => cases fuses
    · rw [adjustSharings_of_ne fuses, adjustSharings_of_ne (form ▸ fuses)]
  simp only [Change.levels, alike.form, adjusted]

theorem render_eq {targets : List String} (signed : c.signature targets = d.signature targets) :
    c.render n targets = d.render n targets := by
  simp only [render, orderText, alike.statement_eq, signed,
    alike.levels_eq h holds holds' fits fits']

/-- What marks a loop or exchanges two does the same to the nest if it is about any computation: the
loops are the same, or the outer loop of an exchange branches and nothing is exchanged. -/
theorem apply_eq (plain : c.form ∉ [.tiling2D, .tiling3D, .fusion])
    (busy : c.targets n ≠ .ok []) : c.apply n = d.apply n := by
  have apart : c.form ≠ .fusion := fun fuses => plain (by simp [fuses])
  have outermost := alike.outermost?_eq h holds apart busy
  obtain ⟨form, levels, factors, -⟩ := alike
  cases c <;> cases d <;> cases form
  case parallelization.parallelization a b => rw [Option.some.inj outermost]
  case reversal.reversal a b => rw [Option.some.inj outermost]
  case unrolling.unrolling a f b g =>
    rw [show a = b from Option.some.inj outermost, (List.cons.inj factors).1]
  case interchange.interchange a b a' b' =>
    have level : a.level = a'.level ∧ b.level = b'.level := by simpa [loops] using levels
    have both : n.Holds a ∧ n.Holds b := by simpa [loops] using holds
    have both' : n.Holds a' ∧ n.Holds b' := by simpa [loops] using holds'
    exact interchange_eq_of_outermost h both both' fits.2 fits'.2 level.1 level.2 outermost
  all_goals exact absurd (by simp [Change.form]) plain

end Bound

end Alike
end Change

end LoopNest
