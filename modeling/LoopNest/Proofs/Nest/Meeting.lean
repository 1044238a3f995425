import LoopNest.Proofs.Nest.Sharing
import LoopNest.Proofs.Outline.Links
import LoopNest.Proofs.Reachable

/-! Where two computations meet. The walk outwards from both innermost loops, over the parents and
the deeper one first, ends in every reachable nest. The loop where it ends is the last of the longest
common start of the two chains, so neither the rule for ties nor the order of the two matters. -/
namespace LoopNest

open Forest

/-- The longest start that two lists have in common. -/
structure CommonStart {α : Type} (start l l' : List α) : Prop where
  first : start <+: l
  second : start <+: l'
  longest : ∀ {other : List α}, other <+: l → other <+: l' → other <+: start

namespace Outline

/-- Two loops after one step outwards: the parent takes the place of the deeper one, of the second
one if both are equally deep. -/
def outwards? (a b : String) (e e' : Entry) : Option (String × String) :=
  if e'.level < e.level then e.parent.map (·, b) else e'.parent.map (a, ·)

/-- Two loops go outwards over their parents until they are one loop. If the one to go has no
parent, they never meet. -/
inductive Meets (o : Outline) : String → String → Sharing → Prop where
  | met {name e} (found : o.loops.get? name = some e) : Meets o name name (.upTo e.level)
  | outwards {a b e e' a' b' level} (differ : a ≠ b) (here : o.loops.get? a = some e)
    (there : o.loops.get? b = some e') (step : outwards? a b e e' = some (a', b'))
    (further : Meets o a' b' level) : Meets o a b level
  | never {a b e e'} (differ : a ≠ b) (here : o.loops.get? a = some e)
    (there : o.loops.get? b = some e') (step : outwards? a b e e' = none) :
    Meets o a b .independent

variable {o : Outline}

theorem Meets.unique {a b : String} {level level' : Sharing} (meets : o.Meets a b level)
    (meets' : o.Meets a b level') : level = level' := by
  induction meets with
  | met found =>
    cases meets' with
    | met found' => rw [Option.some.inj (found.symm.trans found')]
    | outwards differ => exact absurd rfl differ
    | never differ => exact absurd rfl differ
  | outwards differ here there step _ ih =>
    cases meets' with
    | met => exact absurd rfl differ
    | outwards _ here' there' step' further =>
      cases here.symm.trans here'
      cases there.symm.trans there'
      cases step.symm.trans step'
      exact ih further
    | never _ here' there' step' =>
      cases here.symm.trans here'
      cases there.symm.trans there'
      cases step.symm.trans step'
  | never differ here there step =>
    cases meets' with
    | met => exact absurd rfl differ
    | outwards _ here' there' step' =>
      cases here.symm.trans here'
      cases there.symm.trans there'
      cases step.symm.trans step'
    | never => rfl

end Outline

theorem commonStart_pathIds {shared p q : List Loop}
    (unique : ((shared ++ (p ++ q)).map Loop.name).Nodup) :
    CommonStart (pathIds shared) (pathIds (shared ++ p)) (pathIds (shared ++ q)) := by
  have starts (more : List Loop) : pathIds shared <+: pathIds (shared ++ more) := by
    simp [pathIds, List.zipIdx_append]
  refine ⟨starts p, starts q, fun {other} first second => ?_⟩
  refine List.prefix_of_prefix_length_le first (starts p) (Nat.le_of_not_lt fun longer => ?_)
  -- a longer common start would name one loop on both ways, behind the place where they part
  have atP := List.prefix_iff_getElem?.mp first _ longer
  have atQ := List.prefix_iff_getElem?.mp second _ longer
  rw [Nest.getElem?_pathIds, Option.map_eq_some_iff] at atP atQ
  obtain ⟨x, onP, nameX⟩ := atP
  obtain ⟨y, onQ, nameY⟩ := atQ
  have same : x.name = y.name := congrArg LoopId.name (nameX.trans nameY.symm)
  have behind : (pathIds shared).length = shared.length := by simp [pathIds]
  rw [behind, List.getElem?_append_right (Nat.le_refl _)] at onP onQ
  rw [List.map_append, List.map_append] at unique
  have apart := List.disjoint_of_nodup_append (List.nodup_append.mp unique).2.1
  exact apart (List.mem_map_of_mem (List.mem_of_getElem? onP))
    (same ▸ List.mem_map_of_mem (List.mem_of_getElem? onQ))

namespace Nest

variable {n : Nest}

/-- Over the links, the walk from two loops ends where the walk along their chains ends. -/
theorem Placed.meets (h : n.Placed) {outer outer' : List Loop} {t t' : Tree}
    (way : Way n.loops outer t) (way' : Way n.loops outer' t') :
    n.outline.Meets t.loop.name t'.loop.name
      (meet (pathIds (outer ++ [t.loop])).reverse (pathIds (outer' ++ [t'.loop])).reverse) := by
  have here := h.get?_entryAt way
  have there := h.get?_entryAt way'
  have level {outer : List Loop} {t : Tree} : (entryAt 0 none outer t).level = outer.length := by
    simp [entryAt]
  have parent {init : List Loop} {s t : Tree} :
      (entryAt 0 none (init ++ [s.loop]) t).parent = some s.loop.name := by simp [entryAt]
  -- by the number of loops that are still around the two, since each step leaves one of them behind
  induction around : outer.length + outer'.length using Nat.strong_induction_on
    generalizing outer outer' t t' with
  | h k ih =>
    rw [reverse_pathIds_concat, reverse_pathIds_concat, meet]
    by_cases same : t.loop.name = t'.loop.name
    · rw [if_pos same, ← same, ← @level outer t]
      exact .met here
    · rw [if_neg same]
      by_cases deeper : outer'.length < outer.length
      · rw [if_pos deeper]
        rcases List.eq_nil_or_concat' outer with rfl | ⟨init, last, rfl⟩
        · cases deeper
        obtain ⟨s, leads, rfl, -⟩ := way.split
        rw [← reverse_pathIds_concat]
        refine .outwards same here there ?_ (ih _ ?_ leads way' (h.get?_entryAt leads) there rfl)
        · rw [Outline.outwards?, level, level, if_pos deeper, parent, Option.map_some]
        · rw [← around, List.length_append, List.length_singleton]
          omega
      · rw [if_neg deeper]
        rcases List.eq_nil_or_concat' outer' with rfl | ⟨init, last, rfl⟩
        · have alone (ids : List LoopId) : meet ids (pathIds []).reverse = .independent := by
            simp [pathIds, meet]
          rw [alone]
          refine .never same here there ?_
          rw [Outline.outwards?, level, level, if_neg deeper]
          rfl
        obtain ⟨s, leads, rfl, -⟩ := way'.split
        rw [← reverse_pathIds_concat]
        refine .outwards same here there ?_ (ih _ ?_ way leads here (h.get?_entryAt leads) rfl)
        · rw [Outline.outwards?, level, level, if_neg deeper, parent, Option.map_some]
        · rw [← around, List.length_append, List.length_singleton]
          omega

end Nest

/-- In a reachable nest the walk from two computations outwards ends, and in one way only. It finds
that they share as many loops as the longest common start of their chains has, and finds the same
from the second to the first. -/
theorem Reachable.sharing_commonStart {n : Nest} (reached : Reachable n) {x y : String}
    (hx : x ∈ n.order) (hy : y ∈ n.order) :
    ∃ ids ids' shared a b, n.chain x = .ok ids ∧ n.chain y = .ok ids' ∧
      CommonStart shared ids ids' ∧ n.sharing x y = .ok (Sharing.ofCount shared.length) ∧
      n.sharing y x = n.sharing x y ∧ n.outline.innermost.get? x = some a ∧
      n.outline.innermost.get? y = some b ∧
      ∀ level, n.outline.Meets a b level ↔ level = Sharing.ofCount shared.length := by
  have placed := reached.placed
  obtain ⟨outer, t, way, own, chain⟩ := placed.chain_ok hx
  obtain ⟨outer', t', way', own', chain'⟩ := placed.chain_ok hy
  obtain ⟨shared, p, q, hp, hq, apart⟩ := way.fork way'
  have unique := nodup_map_of_subperm apart placed.names
  have long : (pathIds shared).length = shared.length := by simp [pathIds]
  have first := (chain?_eq_some_iff placed.computations).mpr ⟨outer, t, way, own, rfl⟩
  have second := (chain?_eq_some_iff placed.computations).mpr ⟨outer', t', way', own', rfl⟩
  rw [hp] at chain first
  rw [hq] at chain' second
  have unique' : ((shared ++ (q ++ p)).map Loop.name).Nodup :=
    ((List.perm_append_comm.append_left shared).map Loop.name).nodup_iff.mpr unique
  have meets := placed.meets way way'
  rw [hp, hq, meet_pathIds unique] at meets
  refine ⟨_, _, pathIds shared, t.loop.name, t'.loop.name, chain, chain',
    commonStart_pathIds unique, ?_, ?_, placed.get?_innermost.mpr ⟨outer, t, way, own, rfl⟩,
    placed.get?_innermost.mpr ⟨outer', t', way', own', rfl⟩, fun level => ⟨fun walk => ?_, ?_⟩⟩
  · rw [long, Nest.sharing_eq first second unique]
  · rw [Nest.sharing_eq first second unique, Nest.sharing_eq second first unique']
  · rw [long]
    exact walk.unique meets
  · rintro rfl
    rwa [long]

theorem sharing_parted_siblings : Reachable partedNest ∧ "s0" ∈ partedNest.order ∧
    "s1" ∈ partedNest.order ∧ partedNest.sharing "s0" "s1" = .ok (.upTo 0) ∧
    partedNest.sharing "s1" "s0" = .ok (.upTo 0) ∧ partedNest.outline.Meets "a" "b" (.upTo 0) := by
  have first : "s0" ∈ partedNest.order := by decide
  have second : "s1" ∈ partedNest.order := by decide
  have shared : partedNest.sharing "s0" "s1" = .ok (.upTo 0) := by decide +kernel
  obtain ⟨_, _, _, a, b, -, -, -, sharing, swapped, inA, inB, meets⟩ :=
    reachable_parted.sharing_commonStart first second
  have isA : partedNest.outline.innermost.get? "s0" = some "a" := by decide +kernel
  have isB : partedNest.outline.innermost.get? "s1" = some "b" := by decide +kernel
  cases isA.symm.trans inA
  cases isB.symm.trans inB
  refine ⟨reachable_parted, first, second, shared, swapped.trans shared, (meets _).mpr ?_⟩
  exact Except.ok.inj (shared.symm.trans sharing)

end LoopNest
