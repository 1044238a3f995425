import Mathlib.Data.List.Infix
import Mathlib.Logic.Relation
import LoopNest.Proofs.Nest.Sections

/-! Candidates are exact: below each root an action of a form is offered just the loops that it may
sensibly take, each choice once. All of them are found in the sections, since a loop that has a
single loop inside it is followed there by this one. -/
namespace LoopNest

section Lists

variable {α β : Type}

/-- The windows of a list are its parts of that length. -/
theorem mem_windows_iff {width : Nat} (positive : 0 < width) {l part : List α} :
    part ∈ windows width l ↔ part.length = width ∧ part <:+: l := by
  induction l with
  | nil =>
    simp only [windows, List.not_mem_nil, List.infix_nil, false_iff, not_and]
    rintro rfl rfl
    cases positive
  | cons a rest ih =>
    rw [windows, List.infix_cons_iff]
    by_cases fits : width ≤ rest.length + 1
    · rw [if_pos fits, List.mem_cons, ih]
      constructor
      · rintro (rfl | ⟨length, behind⟩)
        · exact ⟨by simp [fits], .inl (List.take_prefix _ _)⟩
        · exact ⟨length, .inr behind⟩
      · rintro ⟨length, first | behind⟩
        · exact .inl (by rw [← length]; exact List.prefix_iff_eq_take.mp first)
        · exact .inr ⟨length, behind⟩
    · rw [if_neg fits]
      simp only [List.not_mem_nil, false_iff, not_and]
      rintro rfl (first | behind)
      · exact fits first.length_le
      · exact fits (Nat.le_succ_of_le behind.length_le)

theorem mem_orderedPairs_iff {l part : List α} :
    part ∈ orderedPairs l ↔ ∃ a b, part = [a, b] ∧ [a, b].Sublist l := by
  induction l with
  | nil => simp [orderedPairs]
  | cons x rest ih =>
    simp only [orderedPairs, List.mem_append, List.mem_map, ih]
    constructor
    · rintro (⟨b, mem, rfl⟩ | ⟨a, b, rfl, behind⟩)
      · exact ⟨x, b, rfl, (List.singleton_sublist.mpr mem).cons_cons x⟩
      · exact ⟨a, b, rfl, behind.cons x⟩
    · rintro ⟨a, b, rfl, part⟩
      cases part with
      | cons _ behind => exact .inr ⟨a, b, rfl, behind⟩
      | cons_cons _ behind => exact .inl ⟨b, List.singleton_sublist.mp behind, rfl⟩

theorem nodup_flatMap_of_head {pieces : List (List α)} {choices : List α → List (List α)}
    (apart : pieces.flatten.Nodup) (each : ∀ s ∈ pieces, (choices s).Nodup)
    (heads : ∀ s ∈ pieces, ∀ part ∈ choices s, ∃ a ∈ s, part.head? = some a) :
    (pieces.flatMap choices).Nodup := by
  refine List.nodup_flatMap.mpr ⟨each, ?_⟩
  refine (List.nodup_flatten.mp apart).2.imp_of_mem fun {s s'} mem mem' disjoint part hs hs' => ?_
  obtain ⟨a, inS, first⟩ := heads s mem part hs
  obtain ⟨b, inS', first'⟩ := heads s' mem' part hs'
  cases first.symm.trans first'
  exact disjoint inS inS'

theorem nodup_windows {width : Nat} (positive : 0 < width) {l : List α} (nodup : l.Nodup) :
    (windows width l).Nodup := by
  induction l with
  | nil => exact List.nodup_nil
  | cons a rest ih =>
    rw [List.nodup_cons] at nodup
    rw [windows]
    split
    · refine List.nodup_cons.mpr ⟨fun again => nodup.1 ?_, ih nodup.2⟩
      obtain ⟨length, behind⟩ := (mem_windows_iff positive).mp again
      refine behind.subset ?_
      rw [List.take_cons positive]
      exact List.mem_cons_self
    · exact List.nodup_nil

theorem nodup_flatMap_windows {width : Nat} (positive : 0 < width) {pieces : List (List α)}
    (apart : pieces.flatten.Nodup) : (pieces.flatMap (windows width)).Nodup := by
  refine nodup_flatMap_of_head apart
    (fun s mem => nodup_windows positive ((List.nodup_flatten.mp apart).1 s mem))
    fun s _ part window => ?_
  obtain ⟨length, inside⟩ := (mem_windows_iff positive).mp window
  have nonempty : part ≠ [] := List.ne_nil_of_length_pos (by omega)
  exact ⟨part.head nonempty, inside.subset (List.head_mem nonempty),
    List.head?_eq_some_head nonempty⟩

theorem nodup_orderedPairs {l : List α} (nodup : l.Nodup) : (orderedPairs l).Nodup := by
  induction l with
  | nil => exact List.nodup_nil
  | cons a rest ih =>
    rw [List.nodup_cons] at nodup
    refine List.nodup_append'.mpr ⟨nodup.2.map fun b c same => by simpa using same, ih nodup.2, ?_⟩
    intro part here behind
    obtain ⟨b, -, rfl⟩ := List.mem_map.mp here
    obtain ⟨a', b', same, part⟩ := mem_orderedPairs_iff.mp behind
    cases same
    exact nodup.1 (part.subset List.mem_cons_self)

theorem filterMap_getLast?_sublist (pieces : List (List α)) :
    (pieces.filterMap List.getLast?).Sublist pieces.flatten := by
  induction pieces with
  | nil => exact .slnil
  | cons s pieces ih =>
    rcases List.eq_nil_or_concat' s with rfl | ⟨init, last, rfl⟩
    · rwa [List.filterMap_cons_none rfl]
    · rw [List.filterMap_cons_some List.getLast?_concat, List.flatten_cons, List.append_assoc]
      exact (ih.cons_cons last).trans (List.sublist_append_right init _)

end Lists

namespace Nest

open Forest

variable {n : Nest} {s : Section}

theorem Unbranched.suffix {before after : Section} {a : LoopId}
    (run : n.Unbranched (before ++ a :: after)) : n.Unbranched (a :: after) := by
  refine ⟨List.cons_ne_nil _ _, run.only.suffix (List.suffix_append _ _), fun id last => ?_⟩
  refine run.ends id ?_
  rw [List.getLast?_append, last]
  rfl

theorem Unbranched.next {a b : LoopId} {after : Section} (run : n.Unbranched (a :: after))
    (single : n.inside a = [b]) : ∃ rest, after = b :: rest ∧ n.Unbranched (b :: rest) := by
  cases after with
  | nil => exact absurd (by rw [single]; rfl) (run.ends a rfl)
  | cons c rest =>
    have followed : n.inside a = [c] := (List.isChain_cons_cons.mp run.only).1
    cases single.symm.trans followed
    exact ⟨rest, rfl, @Unbranched.suffix n [a] rest b run⟩

theorem Unbranched.getLast?_eq {a : LoopId} (run : n.Unbranched s) (mem : a ∈ s)
    (branches : (n.inside a).length ≠ 1) : s.getLast? = some a := by
  obtain ⟨before, after, rfl⟩ := List.append_of_mem mem
  cases after with
  | nil => exact List.getLast?_concat
  | cons b rest =>
    have followed : n.inside a = [b] := (List.isChain_cons_cons.mp run.suffix.only).1
    exact absurd (by rw [followed]; rfl) branches

theorem Unbranched.infix_of_chain {part : Section} (run : n.Unbranched s) (nonempty : part ≠ [])
    (mem : ∀ a, part.head? = some a → a ∈ s) (chain : part.IsChain n.OnlyChild) : part <:+: s := by
  have follow (rest : Section) : ∀ {a after}, n.Unbranched (a :: after) →
      (a :: rest).IsChain n.OnlyChild → a :: rest <+: a :: after := by
    induction rest with
    | nil => exact fun _ _ => ⟨_, rfl⟩
    | cons b rest ih =>
      intro a after run chain
      obtain ⟨single, chain⟩ := List.isChain_cons_cons.mp chain
      obtain ⟨after, rfl, tail⟩ := run.next single
      exact List.cons_prefix_cons.mpr ⟨rfl, ih tail chain⟩
  obtain ⟨a, rest, rfl⟩ := List.exists_cons_of_ne_nil nonempty
  obtain ⟨before, after, rfl⟩ := List.append_of_mem (mem a rfl)
  exact (follow rest run.suffix chain).isInfix.trans (List.suffix_append _ _).isInfix

theorem Unbranched.mem_of_transGen {a d : LoopId} {after : Section}
    (run : n.Unbranched (a :: after)) (below : Relation.TransGen n.OnlyChild a d) : d ∈ after := by
  induction below using Relation.TransGen.head_induction_on generalizing after with
  | single only =>
    obtain ⟨rest, rfl, -⟩ := run.next only
    exact List.mem_cons_self
  | head only _ ih =>
    obtain ⟨rest, rfl, tail⟩ := run.next only
    exact List.mem_cons_of_mem _ (ih tail)

/-- One loop stands before another in a row without branches if it is reached over only children. -/
theorem Unbranched.pair_sublist_iff {a d : LoopId} (run : n.Unbranched s) :
    [a, d].Sublist s ↔ a ∈ s ∧ Relation.TransGen n.OnlyChild a d := by
  constructor
  · intro part
    have chain : s.IsChain (Relation.TransGen n.OnlyChild) :=
      run.only.imp fun _ _ => Relation.TransGen.single
    exact ⟨part.subset List.mem_cons_self, by simpa using chain.pairwise.sublist part⟩
  · rintro ⟨mem, below⟩
    obtain ⟨before, after, rfl⟩ := List.append_of_mem mem
    have behind := run.suffix.mem_of_transGen below
    exact ((List.singleton_sublist.mpr behind).cons_cons a).trans (List.sublist_append_right _ _)

/-- Loops of so many that are each the only one inside the one before it. -/
def Band (n : Nest) (root : LoopId) (width : Nat) (ids : List LoopId) : Prop :=
  ids.length = width ∧ ids.IsChain n.OnlyChild ∧ ∀ id ∈ ids, n.Under root id

/-- A loop and one below it, where each loop from the first down to the one around the second has a
single loop inside it. -/
def Nested (n : Nest) (a d : LoopId) : Prop :=
  n.Holds d ∧ n.Around a d ∧
    ∀ x, n.Holds x → (x = a ∨ n.Around a x) → n.Around x d → (n.inside x).length = 1

variable {root : LoopId} {sections : List Section}

section Sectioned

variable (h : n.Placed) (sec : n.Sectioned root sections)
include sec

theorem Sectioned.under_iff {id : LoopId} : n.Under root id ↔ ∃ s ∈ sections, id ∈ s := by
  rw [← sec.mem_iff, List.mem_flatten]

theorem Sectioned.nodup_of_mem (mem : s ∈ sections) : s.Nodup :=
  (List.nodup_flatten.mp sec.nodup).1 s mem

theorem Sectioned.mem_windows_iff {width : Nat} (positive : 0 < width) {ids : List LoopId} :
    ids ∈ sections.flatMap (windows width) ↔ n.Band root width ids := by
  simp only [List.mem_flatMap, LoopNest.mem_windows_iff positive, Band]
  constructor
  · rintro ⟨s, mem, length, part⟩
    exact ⟨length, List.IsChain.infix (sec.unbranched s mem).only part,
      fun id inPart => sec.under_iff.mpr ⟨s, mem, part.subset inPart⟩⟩
  · rintro ⟨length, chain, under⟩
    have nonempty : ids ≠ [] := List.ne_nil_of_length_pos (by omega)
    obtain ⟨s, mem, head⟩ := sec.under_iff.mp (under _ (List.head_mem nonempty))
    have start : ∀ a, ids.head? = some a → a ∈ s := fun a first => by
      rw [List.head?_eq_some_head nonempty] at first
      exact Option.some.inj first ▸ head
    exact ⟨s, mem, length, (sec.unbranched s mem).infix_of_chain nonempty start chain⟩

include h in
theorem Sectioned.mem_orderedPairs_iff {ids : List LoopId} :
    ids ∈ sections.flatMap orderedPairs ↔
      ∃ a d, ids = [a, d] ∧ n.Under root a ∧ n.Nested a d := by
  simp only [List.mem_flatMap, LoopNest.mem_orderedPairs_iff]
  constructor
  · rintro ⟨s, mem, a, d, rfl, part⟩
    obtain ⟨first, below⟩ := (sec.unbranched s mem).pair_sublist_iff.mp part
    have under := sec.under_iff.mpr ⟨s, mem, first⟩
    exact ⟨a, d, rfl, under, (h.transGen_onlyChild_iff under.1).mp below⟩
  · rintro ⟨a, d, rfl, under, nested⟩
    obtain ⟨s, mem, first⟩ := sec.under_iff.mp under
    have below := (h.transGen_onlyChild_iff under.1).mpr nested
    exact ⟨s, mem, a, d, rfl, (sec.unbranched s mem).pair_sublist_iff.mpr ⟨first, below⟩⟩

theorem Sectioned.nodup_orderedPairs : (sections.flatMap orderedPairs).Nodup := by
  refine nodup_flatMap_of_head sec.nodup
    (fun s mem => LoopNest.nodup_orderedPairs (sec.nodup_of_mem mem)) fun s _ part pair => ?_
  obtain ⟨a, d, rfl, inside⟩ := LoopNest.mem_orderedPairs_iff.mp pair
  exact ⟨a, inside.subset List.mem_cons_self, rfl⟩

/-- The ends of the sections are the loops with none or several loops inside them. -/
theorem Sectioned.mem_ends_iff {id : LoopId} :
    id ∈ sections.filterMap List.getLast? ↔ n.Under root id ∧ (n.inside id).length ≠ 1 := by
  rw [List.mem_filterMap]
  constructor
  · rintro ⟨s, mem, last⟩
    exact ⟨sec.under_iff.mpr ⟨s, mem, List.mem_of_getLast? last⟩,
      (sec.unbranched s mem).ends id last⟩
  · rintro ⟨under, branches⟩
    obtain ⟨s, mem, inSection⟩ := sec.under_iff.mp under
    exact ⟨s, mem, (sec.unbranched s mem).getLast?_eq inSection branches⟩

theorem Sectioned.nodup_ends : (sections.filterMap List.getLast?).Nodup :=
  (filterMap_getLast?_sublist sections).nodup sec.nodup

end Sectioned

end Nest

namespace Form

open Nest

/-- The loops that an action of a form may sensibly take below a root. -/
def Candidate (n : Nest) (root : LoopId) : Form → List LoopId → Prop
  | tiling2D, ids => n.Band root 2 ids
  | tiling3D, ids => n.Band root 3 ids
  | interchange, ids => ∃ a d, ids = [a, d] ∧ n.Under root a ∧ n.Nested a d
  | parallelization, ids | reversal, ids => ∃ a, ids = [a] ∧ n.Under root a
  | unrolling, ids =>
    ∃ a e, ids = [a] ∧ n.Under root a ∧ n.loop? a = some e ∧ e.children = [] ∧
      e.computations ≠ []
  | fusion, ids =>
    ∃ a b, ids = [a, b] ∧ ((a = root ∧ [a, b] <:+: n.roots) ∨
      ∃ around, n.Under root around ∧ [a, b] <:+: n.inside around)

variable {n : Nest} {root : LoopId} {sections : List Section} {ids : List LoopId}

theorem mem_singles_iff {l : List LoopId} :
    ids ∈ l.map (fun id => [id]) ↔ ∃ a, ids = [a] ∧ a ∈ l := by
  simp only [List.mem_map, eq_comm, and_comm]

theorem nodup_singles {l : List LoopId} (nodup : l.Nodup) : (l.map fun id => [id]).Nodup :=
  nodup.map fun _ _ => List.singleton_inj.mp

theorem mem_unrollings_iff (h : n.Placed) (sec : n.Sectioned root sections) :
    ids ∈ unrolling.candidatesIn n root sections ↔ unrolling.Candidate n root ids := by
  simp only [candidatesIn, mem_singles_iff, List.mem_filter, sec.mem_ends_iff, Candidate]
  constructor
  · rintro ⟨a, rfl, ⟨under, -⟩, leaf⟩
    obtain ⟨e, found, working⟩ := (h.isWorkingLeaf_iff under.1).mp leaf
    exact ⟨a, e, rfl, under, found, working⟩
  · rintro ⟨a, e, rfl, under, found, empty, working⟩
    refine ⟨a, rfl, ⟨under, ?_⟩, (h.isWorkingLeaf_iff under.1).mpr ⟨e, found, empty, working⟩⟩
    rw [inside_of_loop? found, empty]
    exact Nat.zero_ne_one

theorem mem_rootPairs_iff :
    ids ∈ n.rootPairs root ↔ ∃ a b, ids = [a, b] ∧ a = root ∧ [a, b] <:+: n.roots := by
  simp only [rootPairs, List.mem_filter, mem_windows_iff Nat.two_pos, List.length_eq_two]
  constructor
  · rintro ⟨⟨⟨a, b, rfl⟩, part⟩, first⟩
    exact ⟨a, b, rfl, by simpa using first, part⟩
  · rintro ⟨a, b, rfl, rfl, part⟩
    exact ⟨⟨⟨a, b, rfl⟩, part⟩, by simp⟩

theorem mem_fusions_iff (sec : n.Sectioned root sections) :
    ids ∈ fusion.candidatesIn n root sections ↔ fusion.Candidate n root ids := by
  simp only [candidatesIn, List.mem_append, mem_rootPairs_iff, List.mem_flatMap, sec.mem_ends_iff,
    mem_windows_iff Nat.two_pos, List.length_eq_two, Candidate]
  constructor
  · rintro (⟨a, b, rfl, first, part⟩ | ⟨around, ⟨under, -⟩, ⟨a, b, rfl⟩, part⟩)
    · exact ⟨a, b, rfl, .inl ⟨first, part⟩⟩
    · exact ⟨a, b, rfl, .inr ⟨around, under, part⟩⟩
  · rintro ⟨a, b, rfl, ⟨first, part⟩ | ⟨around, under, part⟩⟩
    · exact .inl ⟨a, b, rfl, first, part⟩
    · have several : 2 ≤ (n.inside around).length := part.length_le
      exact .inr ⟨around, ⟨under, by omega⟩, ⟨a, b, rfl⟩, part⟩

theorem nodup_fusions (h : n.Placed) (sec : n.Sectioned root sections) :
    (fusion.candidatesIn n root sections).Nodup := by
  have holds : ∀ id ∈ sections.filterMap List.getLast?, n.Holds id :=
    fun id mem => (sec.mem_ends_iff.mp mem).1.1
  have children := h.nodup_flatMap_inside holds sec.nodup_ends
  refine List.nodup_append'.mpr
    ⟨(nodup_windows Nat.two_pos h.roots_nodup).filter _, ?_, fun pair top below => ?_⟩
  · have pieces : ((sections.filterMap List.getLast?).map n.inside).flatten.Nodup := by
      rwa [← List.flatMap_def]
    have pairs := nodup_flatMap_windows Nat.two_pos pieces
    rwa [List.flatMap_map] at pairs
  · obtain ⟨a, b, rfl, -, part⟩ := mem_rootPairs_iff.mp top
    obtain ⟨last, mem, window⟩ := List.mem_flatMap.mp below
    have inner : a ∈ n.inside last :=
      ((mem_windows_iff Nat.two_pos).mp window).2.subset List.mem_cons_self
    obtain ⟨loop, -, same⟩ := List.mem_map.mp (part.subset List.mem_cons_self)
    obtain ⟨-, level, -⟩ := h.of_mem_inside (holds last mem) inner
    rw [← same] at level
    cases level

/-- The candidates below a root are those that there should be. -/
theorem mem_candidatesIn_iff (h : n.Placed) (sec : n.Sectioned root sections) (form : Form) :
    ids ∈ form.candidatesIn n root sections ↔ form.Candidate n root ids := by
  cases form with
  | tiling2D => exact sec.mem_windows_iff Nat.two_pos
  | tiling3D => exact sec.mem_windows_iff (by decide)
  | interchange => exact sec.mem_orderedPairs_iff h
  | parallelization | reversal => simp only [candidatesIn, mem_singles_iff, sec.mem_iff, Candidate]
  | unrolling => exact mem_unrollings_iff h sec
  | fusion => exact mem_fusions_iff sec

/-- None of them is listed twice. -/
theorem nodup_candidatesIn (h : n.Placed) (sec : n.Sectioned root sections) (form : Form) :
    (form.candidatesIn n root sections).Nodup := by
  cases form with
  | tiling2D => exact nodup_flatMap_windows Nat.two_pos sec.nodup
  | tiling3D => exact nodup_flatMap_windows (by decide) sec.nodup
  | interchange => exact sec.nodup_orderedPairs
  | parallelization | reversal => exact nodup_singles sec.nodup
  | unrolling => exact nodup_singles (sec.nodup_ends.filter _)
  | fusion => exact nodup_fusions h sec

end Form
end LoopNest
