import LoopNest.Proofs.Forest.Way

/-! What the searches of a forest find: the way to the loop that passes a test, and the entry of
each loop. -/
namespace LoopNest
namespace Forest

theorem way_cons_iff {loop : Loop} {own : List String} {body rest : Forest} {outer : List Loop}
    {t : Tree} :
    Way (cons loop own body rest) outer t ↔
      (outer = [] ∧ t = ⟨loop, own, body⟩) ∨
      (∃ inner, outer = loop :: inner ∧ Way body inner t) ∨ Way rest outer t := by
  constructor
  · intro way
    cases way with
    | here => exact .inl ⟨rfl, rfl⟩
    | inside way => exact .inr (.inl ⟨_, rfl, way⟩)
    | beside way => exact .inr (.inr way)
  · rintro (⟨rfl, rfl⟩ | ⟨inner, rfl, way⟩ | way)
    · exact .here
    · exact .inside way
    · exact .beside way

@[simp] theorem chain?_nil (c : String) : nil.chain? c = none := rfl

theorem chain?_cons (c : String) (loop : Loop) (own : List String) (body rest : Forest) :
    (cons loop own body rest).chain? c =
      if c ∈ own then some [loop] else ((body.chain? c).map (loop :: ·)).or (rest.chain? c) := by
  simp only [chain?, path?, List.contains_iff_mem]

theorem path?_eq_none_iff {test : Loop → List String → Bool} {f : Forest} :
    f.path? test = none ↔ ∀ t ∈ f.subtrees, test t.loop t.computations = false := by
  induction f with
  | nil => simp [path?, subtrees]
  | cons loop own body rest ihBody ihRest =>
    cases passes : test loop own with
    | true => simp [path?, subtrees, passes]
    | false => simp [path?, subtrees, passes, ihBody, ihRest, or_imp, forall_and]

theorem exists_way_of_path? {test : Loop → List String → Bool} {f : Forest} {path : List Loop}
    (found : f.path? test = some path) :
    ∃ outer t, Way f outer t ∧ test t.loop t.computations = true ∧ path = outer ++ [t.loop] := by
  induction f generalizing path with
  | nil => simp [path?] at found
  | cons loop own body rest ihBody ihRest =>
    cases passes : test loop own with
    | true =>
      have hp : [loop] = path := by simpa [path?, passes] using found
      exact ⟨[], ⟨loop, own, body⟩, .here, passes, hp.symm⟩
    | false =>
      simp only [path?, passes, Bool.false_eq_true, if_false, Option.or_eq_some_iff,
        Option.map_eq_some_iff] at found
      rcases found with ⟨below, found, rfl⟩ | ⟨_, found⟩
      · obtain ⟨outer, t, way, ht, rfl⟩ := ihBody found
        exact ⟨loop :: outer, t, .inside way, ht, rfl⟩
      · obtain ⟨outer, t, way, ht, rfl⟩ := ihRest found
        exact ⟨outer, t, .beside way, ht, rfl⟩

/-- Where only one loop can pass a test, the search finds the way to it. -/
theorem Way.path?_eq {test : Loop → List String → Bool} {f : Forest} {outer : List Loop} {t : Tree}
    (way : Way f outer t) (passes : test t.loop t.computations = true)
    (single : f.subtrees.Pairwise fun r s =>
      test r.loop r.computations = true → test s.loop s.computations = false) :
    f.path? test = some (outer ++ [t.loop]) := by
  induction way with
  | here => simp [path?, passes]
  | @inside loop own body rest outer t way ih =>
    rw [subtrees, List.pairwise_cons, List.pairwise_append] at single
    have below := ih passes single.2.1
    have fails : test loop own = false := by
      by_contra hits
      have none := single.1 _ (List.mem_append_left _ way.mem_subtrees) (by simpa using hits)
      simp [passes] at none
    simp [path?, fails, below]
  | @beside loop own body rest outer t way ih =>
    rw [subtrees, List.pairwise_cons, List.pairwise_append] at single
    have behind := ih passes single.2.2.1
    have fails : test loop own = false := by
      by_contra hits
      have none := single.1 _ (List.mem_append_right _ way.mem_subtrees) (by simpa using hits)
      simp [passes] at none
    have absent : body.path? test = none := by
      refine path?_eq_none_iff.mpr fun s hs => ?_
      by_contra hits
      have none := single.2.2.2 s hs t way.mem_subtrees (by simpa using hits)
      simp [passes] at none
    simp [path?, fails, absent, behind]

theorem pathTo?_eq_some_iff {f : Forest} (unique : f.names.Nodup) {name : String}
    {path : List Loop} :
    f.pathTo? name = some path ↔
      ∃ outer t, Way f outer t ∧ t.loop.name = name ∧ path = outer ++ [t.loop] := by
  constructor
  · intro found
    obtain ⟨outer, t, way, passes, rfl⟩ := exists_way_of_path? found
    exact ⟨outer, t, way, by simpa using passes, rfl⟩
  · rintro ⟨outer, t, way, rfl, rfl⟩
    refine way.path?_eq (by simp) ?_
    have apart : f.subtrees.Pairwise fun r s => r.loop.name ≠ s.loop.name := by
      rw [← map_name_subtrees] at unique
      exact List.pairwise_map.mp unique
    refine apart.imp fun {r s} differs hits => ?_
    have hr : r.loop.name = t.loop.name := by simpa using hits
    simpa [← hr] using differs.symm

/-- There is one way to the loop of a name. -/
theorem Way.eq_of_name_eq {f : Forest} (unique : f.names.Nodup) {outer outer' : List Loop}
    {t t' : Tree} (way : Way f outer t) (way' : Way f outer' t')
    (same : t.loop.name = t'.loop.name) : outer = outer' ∧ t = t' := by
  refine ⟨?_, Forest.eq_of_name_eq unique way.mem_subtrees way'.mem_subtrees same⟩
  have path := (pathTo?_eq_some_iff unique).mpr ⟨outer, t, way, same, rfl⟩
  rw [(pathTo?_eq_some_iff unique).mpr ⟨outer', t', way', rfl, rfl⟩] at path
  exact (List.append_inj_left' (Option.some.inj path) rfl).symm

theorem Way.past {f : Forest} (unique : f.names.Nodup) {around outer : List Loop} {s t : Tree}
    (way : Way f around s) (leads : Way f outer t) (mem : t.loop.name ∈ around.map Loop.name) :
    ∃ after, around = outer ++ t.loop :: after ∧ Way t.body after s := by
  obtain ⟨loop, on, same⟩ := List.mem_map.mp mem
  obtain ⟨before, after, rfl⟩ := List.append_of_mem on
  obtain ⟨r, first, rfl, below⟩ := way.split
  obtain ⟨rfl, rfl⟩ := first.eq_of_name_eq unique leads same
  exact ⟨after, rfl, below⟩

theorem Way.through {f : Forest} (unique : f.names.Nodup) {around outer : List Loop} {s t : Tree}
    (way : Way f around s) (leads : Way f outer t)
    (mem : t.loop.name ∈ (around ++ [s.loop]).map Loop.name) :
    (around = outer ∧ s = t) ∨
      ∃ after, around = outer ++ t.loop :: after ∧ Way t.body after s := by
  rw [List.map_append, List.mem_append] at mem
  rcases mem with above | here
  · exact .inr (way.past unique leads above)
  · exact .inl (way.eq_of_name_eq unique leads (by simpa [eq_comm] using here))

/-- A computation's chain is the way to the loop that executes it. -/
theorem chain?_eq_some_iff {f : Forest} (unique : f.computations.Nodup) {c : String}
    {path : List Loop} :
    f.chain? c = some path ↔
      ∃ outer t, Way f outer t ∧ c ∈ t.computations ∧ path = outer ++ [t.loop] := by
  constructor
  · intro found
    obtain ⟨outer, t, way, passes, rfl⟩ := exists_way_of_path? found
    exact ⟨outer, t, way, by simpa using passes, rfl⟩
  · rintro ⟨outer, t, way, mem, rfl⟩
    refine way.path?_eq (by simpa using mem) ?_
    rw [← flatMap_computations_subtrees, List.nodup_flatMap] at unique
    refine unique.2.imp fun {r s} disjoint hits => ?_
    simpa using disjoint (by simpa using hits)

theorem mem_computations_iff {f : Forest} {c : String} :
    c ∈ f.computations ↔ ∃ outer t, Way f outer t ∧ c ∈ t.computations := by
  rw [← flatMap_computations_subtrees, List.mem_flatMap]
  constructor
  · rintro ⟨t, mem, hc⟩
    obtain ⟨outer, way⟩ := exists_way mem
    exact ⟨outer, t, way, hc⟩
  · rintro ⟨outer, t, way, hc⟩
    exact ⟨t, way.mem_subtrees, hc⟩

theorem chain?_eq_none_iff {f : Forest} {c : String} :
    f.chain? c = none ↔ c ∉ f.computations := by
  rw [chain?, path?_eq_none_iff, ← flatMap_computations_subtrees, List.mem_flatMap]
  simp

theorem exists_chain? {f : Forest} {c : String} (mem : c ∈ f.computations) :
    ∃ path, f.chain? c = some path := by
  cases found : f.chain? c with
  | none => exact absurd mem (chain?_eq_none_iff.mp found)
  | some path => exact ⟨path, rfl⟩

/-- The ways to two loops run together first; from where they part, no loop stands on both. -/
theorem Way.fork {f : Forest} {outer outer' : List Loop} {t t' : Tree} (way : Way f outer t)
    (way' : Way f outer' t') :
    ∃ shared p q, outer ++ [t.loop] = shared ++ p ∧ outer' ++ [t'.loop] = shared ++ q ∧
      (shared ++ (p ++ q)).Subperm f.loops := by
  have swap : ∀ p q : List Loop, (p ++ q).Subperm (q ++ p) := fun p q =>
    List.perm_append_comm.subperm
  induction way generalizing outer' t' with
  | @here loop own body rest =>
    rcases way_cons_iff.mp way' with ⟨rfl, rfl⟩ | ⟨inner, rfl, below⟩ | behind
    · exact ⟨[loop], [], [], rfl, rfl, by simp [loops]⟩
    · exact ⟨[loop], [], inner ++ [t'.loop], rfl, by simp, way'.sublist.subperm⟩
    · refine ⟨[], [loop], outer' ++ [t'.loop], rfl, rfl, ?_⟩
      have sub := behind.sublist.trans (List.sublist_append_right body.loops _)
      exact (sub.cons_cons loop).subperm
  | @inside loop own body rest outer t way ih =>
    rcases way_cons_iff.mp way' with ⟨rfl, rfl⟩ | ⟨inner, rfl, below⟩ | behind
    · refine ⟨[loop], outer ++ [t.loop], [], by simp, rfl, ?_⟩
      have whole : Way (cons loop own body rest) (loop :: outer) t := .inside way
      simpa using whole.sublist.subperm
    · obtain ⟨shared, p, q, hp, hq, sub⟩ := ih below
      refine ⟨loop :: shared, p, q, by simp [hp], by simp [hq], ?_⟩
      have sub' := sub.trans (List.sublist_append_left body.loops rest.loops).subperm
      exact (List.subperm_cons loop).mpr sub'
    · refine ⟨[], loop :: outer ++ [t.loop], outer' ++ [t'.loop], rfl, rfl, ?_⟩
      exact ((way.sublist.append behind.sublist).cons_cons loop).subperm
  | @beside loop own body rest outer t way ih =>
    rcases way_cons_iff.mp way' with ⟨rfl, rfl⟩ | ⟨inner, rfl, below⟩ | behind
    · refine ⟨[], outer ++ [t.loop], [loop], rfl, rfl, (swap (outer ++ [t.loop]) _).trans ?_⟩
      have sub := way.sublist.trans (List.sublist_append_right body.loops _)
      exact (sub.cons_cons loop).subperm
    · refine ⟨[], outer ++ [t.loop], loop :: inner ++ [t'.loop], rfl, rfl, ?_⟩
      refine (swap (outer ++ [t.loop]) _).trans ?_
      exact ((below.sublist.append way.sublist).cons_cons loop).subperm
    · obtain ⟨shared, p, q, hp, hq, sub⟩ := ih behind
      refine ⟨shared, p, q, hp, hq, sub.trans ?_⟩
      exact ((List.sublist_append_right body.loops _).cons loop).subperm

/-- The entry of a loop inside a row that stands at a level below a parent. -/
def entryAt (level : Nat) (parent : Option String) (outer : List Loop) (t : Tree) : Entry where
  loop := t.loop
  level := level + outer.length
  parent := (outer.getLast?.map Loop.name).or parent
  children := t.body.tops.map Loop.name
  computations := t.computations

theorem mem_entries_iff {f : Forest} {level : Nat} {parent : Option String} {e : Entry} :
    e ∈ f.entries level parent ↔ ∃ outer t, Way f outer t ∧ e = entryAt level parent outer t := by
  induction f generalizing level parent with
  | nil =>
    constructor
    · simp [entries]
    · rintro ⟨outer, t, way, _⟩
      cases way
  | cons loop own body rest ihBody ihRest =>
    have below (inner : List Loop) (t : Tree) :
        entryAt (level + 1) (some loop.name) inner t = entryAt level parent (loop :: inner) t := by
      cases last : inner.getLast? <;>
        simp [entryAt, List.getLast?_cons, last, Nat.add_comm, Nat.add_left_comm]
    simp only [entries, List.mem_cons, List.mem_append, ihBody, ihRest]
    constructor
    · rintro (rfl | ⟨inner, t, way, rfl⟩ | ⟨outer, t, way, rfl⟩)
      · exact ⟨[], _, .here, by simp [entryAt]⟩
      · exact ⟨loop :: inner, t, .inside way, below inner t⟩
      · exact ⟨outer, t, .beside way, rfl⟩
    · rintro ⟨outer, t, way, rfl⟩
      rcases way_cons_iff.mp way with ⟨rfl, rfl⟩ | ⟨inner, rfl, within⟩ | behind
      · exact .inl (by simp [entryAt])
      · exact .inr (.inl ⟨inner, t, within, (below inner t).symm⟩)
      · exact .inr (.inr ⟨outer, t, behind, rfl⟩)

theorem map_loop_entries (f : Forest) (level : Nat) (parent : Option String) :
    (f.entries level parent).map Entry.loop = f.loops := by
  induction f generalizing level parent with
  | nil => rfl
  | cons loop own body rest ihBody ihRest => simp [entries, loops, ihBody, ihRest]

theorem flatMap_computations_entries (f : Forest) (level : Nat) (parent : Option String) :
    (f.entries level parent).flatMap Entry.computations = f.computations := by
  induction f generalizing level parent with
  | nil => rfl
  | cons loop own body rest ihBody ihRest => simp [entries, computations, ihBody, ihRest]

end Forest
end LoopNest
