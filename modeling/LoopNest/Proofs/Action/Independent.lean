import LoopNest.Proofs.Action.Exchanged
import LoopNest.Proofs.Action.Order
import LoopNest.Proofs.Action.Rebind
import LoopNest.Proofs.Forest.Commute

/-! Actions that commute. A change other than a fusion looks at its loops, at what is around them
and inside them, and at the names that its tile loops can have; it edits the forest at these loops
only. Another change, of loops that are neither of these nor around nor inside them, leaves all this
as it is. So either can be bound first, and both orders leave the same nest. -/
namespace LoopNest

open Forest

namespace Nest

/-- Another nest is the same at loops of a nest: they stand in the same loops there, with the same
inside them, and of the names that tile loops of theirs can have the same are taken. -/
structure SameAt (n m : Nest) (ids : List LoopId) : Prop where
  ways : ∀ id ∈ ids, ∀ outer t, Way n.loops outer t → t.loop.name = id.name → Way m.loops outer t
  taken : ∀ id ∈ ids, ∀ name, stem name = stem (id.name ++ "_tile") →
    (name ∈ m.loops.names ↔ name ∈ n.loops.names)

/-- No loop of one list is in the other, or encloses a loop of it, or is inside one. -/
def Independent (n : Nest) (ids ids' : List LoopId) : Prop :=
  ∀ x ∈ ids, ∀ y ∈ ids', x ≠ y ∧ ¬n.Around x y ∧ ¬n.Around y x

variable {n m : Nest} {ids ids' : List LoopId} {id a b : LoopId}

theorem Independent.symm (independent : n.Independent ids ids') : n.Independent ids' ids :=
  fun x mem y mem' =>
    have ⟨differ, outside, inside⟩ := independent y mem' x mem
    ⟨differ.symm, inside, outside⟩

theorem Placed.independent_iff (h : n.Placed) :
    n.Independent ids ids' ↔ ∀ x ∈ ids, ∀ y ∈ ids', x ≠ y ∧
      n.encloses x.name y.name = false ∧ n.encloses y.name x.name = false := by
  have apart (a b : LoopId) : n.encloses a.name b.name = false ↔ ¬n.Around a b :=
    Bool.eq_false_iff.trans (not_congr h.encloses_iff)
  simp only [Independent, apart]

theorem SameAt.refl (n : Nest) (ids : List LoopId) : n.SameAt n ids :=
  ⟨fun _ _ _ _ way _ => way, fun _ _ _ _ => Iff.rfl⟩

theorem SameAt.holds (same : n.SameAt m ids) (mem : id ∈ ids) (holds : n.Holds id) :
    m.Holds id := by
  obtain ⟨outer, t, way, name, deep⟩ := holds
  exact ⟨outer, t, same.ways id mem outer t way name, name, deep⟩

theorem SameAt.find?_eq (same : n.SameAt m ids) (h : n.Placed) (h' : m.Placed) (mem : id ∈ ids)
    (holds : n.Holds id) : m.loops.find? id.name = n.loops.find? id.name := by
  obtain ⟨outer, t, way, name, -, found, -⟩ := h.found holds
  have way' := same.ways id mem outer t way name
  rw [found, find?_eq_some_iff h'.names]
  exact ⟨way'.mem_subtrees, name⟩

theorem SameAt.entry?_eq (same : n.SameAt m ids) (h : n.Placed) (h' : m.Placed) (mem : id ∈ ids)
    (holds : n.Holds id) : m.entry? id.name = n.entry? id.name := by
  obtain ⟨outer, t, way, name, -, -, found⟩ := h.found holds
  have way' := same.ways id mem outer t way name
  rw [found, h'.entry?_eq_some_iff]
  exact ⟨outer, t, way', name, rfl⟩

theorem SameAt.around (same : n.SameAt m ids) (mem : b ∈ ids) (around : n.Around a b) :
    m.Around a b := by
  obtain ⟨outer, t, way, name, above⟩ := around
  exact ⟨outer, t, same.ways b mem outer t way name, name, above⟩

theorem SameAt.swappable_eq (same : n.SameAt m ids) (h : n.Placed) (h' : m.Placed) (mem : a ∈ ids)
    (holds : n.Holds a) (b : LoopId) : m.swappable a b = n.swappable a b := by
  simp only [swappable, same.find?_eq h h' mem holds]

theorem SameAt.isBand_eq (same : n.SameAt m ids) (h : n.Placed) (h' : m.Placed)
    {band : List LoopId} (known : ∀ id ∈ band, id ∈ ids ∧ n.Holds id) :
    m.isBand band = n.isBand band := by
  induction band with
  | nil => rfl
  | cons a band ih =>
    cases band with
    | nil => rfl
    | cons b band =>
      have behind := ih fun id mem => known id (List.mem_cons_of_mem _ mem)
      obtain ⟨mem, holds⟩ := known b (by simp)
      simp only [isBand, loop?, same.entry?_eq h h' mem holds, behind]

theorem SameAt.bandLoops_eq (same : n.SameAt m ids) (h : n.Placed) (h' : m.Placed)
    {band : List (LoopId × Factor)} (known : ∀ part ∈ band, part.1 ∈ ids ∧ n.Holds part.1) :
    m.bandLoops band = n.bandLoops band := by
  induction band with
  | nil => rfl
  | cons part band ih =>
    have behind := ih fun part mem => known part (List.mem_cons_of_mem _ mem)
    obtain ⟨mem, holds⟩ := known part (by simp)
    simp only [bandLoops, same.entry?_eq h h' mem holds, behind]

end Nest

namespace Change

/-- What a change other than a fusion does to a nest, and to each other one that is the same at its
loops. -/
structure Does (n : Nest) (c : Change) (e : Edit) : Prop where
  about : e.About (c.loops.map LoopId.name)
  names : (e.run n.loops).names.Perm (e.new.map Loop.name ++ n.loops.names)
  fresh : n.loops.names.Disjoint (e.new.map Loop.name)
  /-- The new loops are named after loops of the change. -/
  stems : ∀ loop ∈ e.new, ∃ id ∈ c.loops, stem loop.name = stem (id.name ++ "_tile")
  apply : ∀ m : Nest, m.Placed → n.SameAt m c.loops →
    c.apply m = .ok { m with loops := e.run m.loops }

variable {n : Nest} {c : Change}

theorem does_adjust {id : LoopId} (loops : c.loops = [id]) (holds : n.Holds id)
    {change : Loop → Loop} (applies : ∀ m : Nest, c.apply m = m.adjust id change)
    (named : ∀ loop, (change loop).name = loop.name) :
    c.Does n (.inPlace fun loop => if loop.name = id.name then change loop else loop) where
  about loop := by
    rw [loops]
    by_cases same : loop.name = id.name <;> simp [same, named]
  names := .of_eq (names_adjust named id.name n.loops)
  fresh := by simp [Edit.new]
  stems := by simp [Edit.new]
  apply m h' same := by
    rw [applies]
    exact h'.adjust_eq (same.holds (by simp [loops]) holds) change

theorem does_nothing (applies : ∀ m : Nest, m.Placed → n.SameAt m c.loops → c.apply m = .ok m) :
    c.Does n (.inPlace id) where
  about _ := ⟨fun mem => mem, fun _ => rfl⟩
  names := by
    rw [Edit.run, mapLoops_id]
    exact .refl _
  fresh := by simp [Edit.new]
  stems := by simp [Edit.new]
  apply m h' same := by
    rw [Edit.run, mapLoops_id]
    exact applies m h' same

theorem exists_does_interchange (h : n.Placed) {a b : LoopId} (holdsA : n.Holds a)
    (holdsB : n.Holds b) : ∃ e, (interchange a b).Does n e := by
  have first : (Nest.ordered a b).1 ∈ [a, b] ∧ n.Holds (Nest.ordered a b).1 := by
    rw [Nest.ordered]
    split <;> simp [holdsA, holdsB]
  have swappable_eq {m : Nest} (h' : m.Placed) (same : n.SameAt m [a, b]) :=
    same.swappable_eq h h' first.1 first.2 (Nest.ordered a b).2
  by_cases swaps : n.swappable (Nest.ordered a b).1 (Nest.ordered a b).2 = true
  · obtain ⟨s, t, foundA, foundB, -⟩ := h.exchange holdsA holdsB swaps
    obtain ⟨memA, nameA⟩ := (find?_eq_some_iff h.names).mp foundA
    obtain ⟨memB, nameB⟩ := (find?_eq_some_iff h.names).mp foundB
    refine ⟨.inPlace (s.loop.exchange t.loop), fun loop => ?_,
      Nest.names_exchange_perm h.names memA memB, by simp [Edit.new], by simp [Edit.new],
      fun m h' same => ?_⟩
    · simp only [loops, List.map_cons, List.map_nil, ← nameA, ← nameB, Loop.exchange]
      split
      · next isA => simp [isA]
      · next notA =>
        split
        · next isB => simp [isB]
        · next notB => simp [notA, notB]
    · have holds' : m.Holds a ∧ m.Holds b :=
        ⟨same.holds (by simp [loops]) holdsA, same.holds (by simp [loops]) holdsB⟩
      obtain ⟨s', t', foundA', foundB', exchanged⟩ :=
        h'.exchange holds'.1 holds'.2 ((swappable_eq h' same).trans swaps)
      rw [same.find?_eq h h' (by simp [loops]) holdsA, foundA] at foundA'
      rw [same.find?_eq h h' (by simp [loops]) holdsB, foundB] at foundB'
      cases foundA'
      cases foundB'
      exact exchanged
  · exact ⟨_, does_nothing fun m h' same =>
      Nest.interchange_of_not_swappable (by rwa [swappable_eq h' same])⟩

theorem does_tile (h : n.Placed) {band rest : List (LoopId × Factor)} {first : LoopId × Factor}
    (ordered : sortBy (fun part => part.1.level) band = first :: rest)
    (parts_of : ∀ part ∈ band, part.1 ∈ c.loops ∧ n.Holds part.1)
    (linked : n.isBand ((first :: rest).map Prod.fst) = true) {parts : List (Loop × Factor)}
    (found : n.bandLoops (first :: rest) = .ok parts)
    (names : parts.map (fun part => part.1.name) = (first :: rest).map fun part => part.1.name)
    (applies : ∀ m : Nest, c.apply m = m.tile band) :
    c.Does n (.around first.1.name (tileLoops n.loops.names parts)) := by
  have sorted_of : ∀ part ∈ first :: rest, part.1 ∈ c.loops ∧ n.Holds part.1 := fun part mem =>
    parts_of part (mem_sortBy.mp (ordered ▸ mem))
  obtain ⟨isLoop, holds⟩ := sorted_of first List.mem_cons_self
  have named : ∀ part ∈ parts, ∃ id ∈ c.loops, id.name = part.1.name := by
    intro part mem
    have among : part.1.name ∈ (first :: rest).map fun part => part.1.name :=
      names ▸ List.mem_map_of_mem mem
    obtain ⟨other, mem', same⟩ := List.mem_map.mp among
    exact ⟨other.1, (sorted_of other mem').1, same⟩
  refine ⟨List.mem_map_of_mem isLoop, names_enclose_perm h.names holds.mem_names,
    fun _ mem mem' => List.disjoint_of_nodup_append (nodup_tileLoops parts h.names) mem' mem,
    fun tile mem => ?_, fun m h' same => ?_⟩
  · obtain ⟨part, inParts, stems⟩ := exists_part_of_mem_tileLoops mem
    obtain ⟨id, isLoop, name⟩ := named part inParts
    exact ⟨id, isLoop, by rw [stems, name]⟩
  · have linked' : m.isBand ((first :: rest).map Prod.fst) = true :=
      (same.isBand_eq h h' (List.forall_mem_map.mpr sorted_of)).trans linked
    obtain ⟨parts', found', tiled, -⟩ :=
      h'.tile_eq (fun part mem => same.holds (parts_of part mem).1 (parts_of part mem).2) ordered
        linked'
    rw [same.bandLoops_eq h h' sorted_of, found] at found'
    cases found'
    have tiles : tileLoops m.loops.names parts = tileLoops n.loops.names parts := by
      refine tileLoops_congr fun part mem name stems => ?_
      obtain ⟨id, isLoop, named⟩ := named part mem
      exact same.taken id isLoop name (named ▸ stems)
    rw [applies, tiled, tiles]
    rfl

theorem exists_does_tile (h : n.Placed) {band : List (LoopId × Factor)}
    (parts_of : ∀ part ∈ band, part.1 ∈ c.loops ∧ n.Holds part.1) (nonempty : band ≠ [])
    (applies : ∀ m : Nest, c.apply m = m.tile band) : ∃ e, c.Does n e := by
  by_cases linked : n.isBand ((sortBy (fun part => part.1.level) band).map Prod.fst) = true
  · obtain ⟨first, rest, ordered, -⟩ := exists_sortBy_eq_cons nonempty fun part => part.1.level
    rw [ordered] at linked
    obtain ⟨parts, found, -, names⟩ :=
      h.tile_eq (fun part mem => (parts_of part mem).2) ordered linked
    exact ⟨_, does_tile h ordered parts_of linked found names applies⟩
  · refine ⟨_, does_nothing fun m h' same => (applies m).trans (Nest.tile_of_not_band ?_)⟩
    rwa [same.isBand_eq h h' (List.forall_mem_map.mpr fun part mem =>
      parts_of part (mem_sortBy.mp mem))]

/-- Every change other than a fusion makes an edit. -/
theorem exists_does (h : n.Placed) (holds : ∀ id ∈ c.loops, n.Holds id) (apart : c.form ≠ .fusion) :
    ∃ e, c.Does n e := by
  cases c with
  | tiling2D a b s t =>
    have parts_of : ∀ part ∈ [(a, s), (b, t)],
        part.1 ∈ (tiling2D a b s t).loops ∧ n.Holds part.1 := by
      simpa [loops] using holds
    exact exists_does_tile h parts_of (by simp) fun _ => rfl
  | tiling3D a b c s t u =>
    have parts_of : ∀ part ∈ [(a, s), (b, t), (c, u)],
        part.1 ∈ (tiling3D a b c s t u).loops ∧ n.Holds part.1 := by
      simpa [loops] using holds
    exact exists_does_tile h parts_of (by simp) fun _ => rfl
  | interchange a b =>
    exact exists_does_interchange h (holds a (by simp [loops])) (holds b (by simp [loops]))
  | parallelization a =>
    exact ⟨_, does_adjust rfl (holds a (by simp [loops])) (fun _ => rfl) fun _ => rfl⟩
  | unrolling a f =>
    exact ⟨_, does_adjust rfl (holds a (by simp [loops])) (fun _ => rfl) fun _ => rfl⟩
  | reversal a =>
    exact ⟨_, does_adjust rfl (holds a (by simp [loops])) (fun _ => rfl) fun _ => rfl⟩
  | fusion a b => exact absurd rfl apart

theorem Compatible.sameAt {m : Nest} (fits : c.Compatible n) (same : n.SameAt m c.loops)
    (apart : c.form ≠ .fusion) : c.Compatible m := by
  cases c with
  | interchange a b =>
    obtain ⟨levels, around⟩ := fits
    exact ⟨levels, around.imp (same.around (by simp [loops])) (same.around (by simp [loops]))⟩
  | fusion a b => exact absurd rfl apart
  | _ => trivial

/-- After a change the nest is the same at loops that are independent of the change's. -/
theorem Does.sameAt {e : Edit} (does : c.Does n e) (h : n.Placed)
    (holds : ∀ id ∈ c.loops, n.Holds id) {ids : List LoopId} (holds' : ∀ id ∈ ids, n.Holds id)
    (independent : n.Independent c.loops ids) {m : Nest} (loops : m.loops = e.run n.loops) :
    n.SameAt m ids where
  ways id mem outer t way name := by
    rw [loops]
    refine Edit.run_way does.about h.names way (fun other among above => ?_)
      fun other among below => ?_
    · obtain ⟨x, isLoop, rfl⟩ := List.mem_map.mp among
      obtain ⟨differ, outside, -⟩ := independent x isLoop id mem
      rw [List.map_append, List.mem_append] at above
      rcases above with above | here
      · exact outside ⟨outer, t, way, name, above⟩
      · refine differ (h.eq_of_name_eq (holds x isLoop) (holds' id mem) ?_)
        rw [← name]
        exact List.mem_singleton.mp here
    · obtain ⟨x, isLoop, rfl⟩ := List.mem_map.mp among
      rw [← map_name_subtrees, List.mem_map] at below
      obtain ⟨r, inside, named⟩ := below
      obtain ⟨between, leads⟩ := exists_way inside
      exact (independent x isLoop id mem).2.2 ⟨_, r, way.trans leads, named, by simp [name]⟩
  taken id mem name stems := by
    rw [loops, does.names.mem_iff, List.mem_append]
    refine or_iff_right fun among => ?_
    obtain ⟨tile, isNew, rfl⟩ := List.mem_map.mp among
    obtain ⟨x, isLoop, named⟩ := does.stems tile isNew
    have same : x.name = id.name := stem_tile_injective (named.symm.trans stems)
    exact (independent x isLoop id mem).1 (h.eq_of_name_eq (holds x isLoop) (holds' id mem) same)

end Change

namespace Action

variable {n m : Nest} {a a' : Action} {e e' : Edit}

/-- An action that binds to loops of a nest binds in each nest that is the same at these loops, and
makes the same edit there. -/
theorem exists_bind_sameAt (h : n.Placed) (does : a.change.Does n e) (apart : a.form ≠ .fusion)
    (holds : ∀ id ∈ a.change.loops, n.Holds id) {bound : Action} (binds : a.bind n = .ok bound)
    (sound : m.Sound) (same : n.SameAt m a.change.loops) (order : m.order.Perm n.order) :
    ∃ again next, a.bind m = .ok again ∧ again.nest? = some next ∧ next.Sound ∧
      next.renumber = next ∧ next = { m.renumber with loops := e.run m.loops } := by
  obtain ⟨fits, given⟩ := compatible_of_bind h binds holds
  have holds' : ∀ id ∈ a.change.loops, m.Holds id := fun id mem => same.holds mem (holds id mem)
  have fits' := fits.sameAt same apart
  have applied := does.apply m sound.toPlaced same
  obtain ⟨_, _, -, again⟩ :=
    exists_bind sound.toPlaced holds' fits' (given_of_perm order given) applied
  obtain ⟨changed, -, renumbered⟩ := sound.renumber_apply holds' fits' apart applied
  have placed := changed.toPlaced
  exact ⟨_, _, again, rfl, placed.renumber, placed.renumber_renumber, renumbered⟩

theorem bindAll_pair (h : n.Sound) (does : a.change.Does n e) (does' : a'.change.Does n e')
    (apart : a.form ≠ .fusion) (apart' : a'.form ≠ .fusion)
    (holds : ∀ id ∈ a.change.loops, n.Holds id) (holds' : ∀ id ∈ a'.change.loops, n.Holds id)
    (independent : n.Independent a.change.loops a'.change.loops) {bound bound' : Action}
    (binds : a.bind n = .ok bound) (binds' : a'.bind n = .ok bound') :
    ∃ bs, bindAll n [a, a'] =
      .ok (bs, { n.renumber with loops := e'.run (e.run n.loops) }) := by
  obtain ⟨first, next, bindsFirst, changed, sound, walked, rfl⟩ :=
    exists_bind_sameAt h.toPlaced does apart holds binds h (.refl n _) (.refl _)
  have same := does.sameAt h.toPlaced holds holds' independent
    (m := { n.renumber with loops := e.run n.loops }) rfl
  obtain ⟨second, last, bindsSecond, changed', -, -, rfl⟩ :=
    exists_bind_sameAt h.toPlaced does' apart' holds' binds' sound same n.order_renumber_perm
  rw [walked] at changed'
  have once := bindAll_concat (rfl : bindAll n [] = .ok ([], n)) bindsFirst changed
  exact ⟨_, bindAll_concat once bindsSecond changed'⟩

end Action

/-- Two actions that are no fusions, each of loops of a reachable nest to which it binds, can be
bound in either order, the second to the nest that the first leaves, if no loop of one is one of the
other's or around or inside one of these. Both orders leave the same nest. -/
theorem Reachable.bindAll_comm {n : Nest} (reached : Reachable n) {a a' bound bound' : Action}
    (apart : a.form ≠ .fusion) (apart' : a'.form ≠ .fusion)
    (known : ∀ id ∈ a.change.loops, n.contains id = true)
    (known' : ∀ id ∈ a'.change.loops, n.contains id = true)
    (binds : a.bind n = .ok bound) (binds' : a'.bind n = .ok bound')
    (independent : n.Independent a.change.loops a'.change.loops) :
    ∃ bs bs' m, Action.bindAll n [a, a'] = .ok (bs, m) ∧
      Action.bindAll n [a', a] = .ok (bs', m) := by
  have h := reached.placed
  have holds : ∀ id ∈ a.change.loops, n.Holds id := fun id mem => h.contains_iff.mp (known id mem)
  have holds' : ∀ id ∈ a'.change.loops, n.Holds id :=
    fun id mem => h.contains_iff.mp (known' id mem)
  obtain ⟨e, does⟩ := Change.exists_does h holds apart
  obtain ⟨e', does'⟩ := Change.exists_does h holds' apart'
  obtain ⟨bs, inOrder⟩ := Action.bindAll_pair reached.sound does does' apart apart' holds holds'
    independent binds binds'
  obtain ⟨bs', turned⟩ := Action.bindAll_pair reached.sound does' does apart' apart holds' holds
    independent.symm binds' binds
  have names {c : Change} (holds : ∀ id ∈ c.loops, n.Holds id) :
      c.loops.map LoopId.name ⊆ n.loops.names := fun name mem => by
    obtain ⟨id, isLoop, rfl⟩ := List.mem_map.mp mem
    exact (holds id isLoop).mem_names
  have disjoint : (a.change.loops.map LoopId.name).Disjoint (a'.change.loops.map LoopId.name) := by
    intro name mem mem'
    obtain ⟨x, isLoop, rfl⟩ := List.mem_map.mp mem
    obtain ⟨y, isLoop', same⟩ := List.mem_map.mp mem'
    exact (independent x isLoop y isLoop').1
      (h.eq_of_name_eq (holds x isLoop) (holds' y isLoop') same.symm)
  have same := Edit.run_comm does.about does'.about disjoint
    (fun name mem => does.fresh (names holds' mem)) (fun name mem => does'.fresh (names holds mem))
    n.loops
  exact ⟨bs, bs', _, inOrder, by rw [turned, same]⟩

def exchangeColumns : Action where
  change := .interchange ⟨"v", 0⟩ ⟨"u", 1⟩

theorem bindAll_tile_exchange : ∃ bs bs' m,
    Action.bindAll blurNest [tileRows, exchangeColumns] = .ok (bs, m) ∧
      Action.bindAll blurNest [exchangeColumns, tileRows] = .ok (bs', m) := by
  have independent : blurNest.Independent tileRows.change.loops exchangeColumns.change.loops :=
    reachable_blur.placed.independent_iff.mpr (by decide +kernel)
  have isBound : (exchangeColumns.bind blurNest).isOk = true := by cbv
  cases binds : exchangeColumns.bind blurNest with
  | ok bound =>
    exact reachable_blur.bindAll_comm (by decide) (by decide) (by decide +kernel)
      (by decide +kernel) bind_tileRows binds independent
  | error e => simp [binds, Except.isOk, Except.toBool] at isBound

end LoopNest
