import LoopNest.Proofs.Action.Exchanged
import LoopNest.Proofs.Action.Order
import LoopNest.Proofs.Action.Rebind

/-! Changes that undo themselves. Reversing a loop twice leaves it as it was, and interchanging two
names twice puts each loop back in its place. The forest is the one of before; the order has been
worked out anew, so the nest is the one of before exactly if its order was depth-first. -/
namespace LoopNest

open Forest

theorem Loop.exchange_exchange {first second loop : Loop} (apart : first.name ≠ second.name)
    (isFirst : loop.name = first.name → loop = first)
    (isSecond : loop.name = second.name → loop = second) :
    first.exchange second (first.exchange second loop) = loop := by
  by_cases atFirst : loop.name = first.name
  · simp [exchange, isFirst atFirst, apart.symm]
  · by_cases atSecond : loop.name = second.name
    · simp [exchange, isSecond atSecond, apart.symm]
    · simp [exchange, atFirst, atSecond]

namespace Forest

theorem mapLoops_twice {edit : Loop → Loop} {f : Forest}
    (undoes : ∀ loop ∈ f.loops, edit (edit loop) = loop) :
    (f.mapLoops edit).mapLoops edit = f :=
  calc (f.mapLoops edit).mapLoops edit
      = f.mapLoops (edit ∘ edit) := mapLoops_mapLoops _ _ f
    _ = f := mapLoops_eq_self undoes

theorem mapLoops_exchange_exchange {f : Forest} (unique : f.names.Nodup) {s t : Tree}
    (memS : s ∈ f.subtrees) (memT : t ∈ f.subtrees) (apart : s.loop.name ≠ t.loop.name) :
    (f.mapLoops (s.loop.exchange t.loop)).mapLoops (s.loop.exchange t.loop) = f := by
  have isLoop {r : Tree} (memR : r ∈ f.subtrees) {loop : Loop} (mem : loop ∈ f.loops)
      (same : loop.name = r.loop.name) : loop = r.loop := by
    rw [← map_loop_subtrees] at mem
    obtain ⟨r', memR', rfl⟩ := List.mem_map.mp mem
    rw [eq_of_name_eq unique memR' memR same]
  exact mapLoops_twice fun loop mem =>
    Loop.exchange_exchange apart (isLoop memS mem) (isLoop memT mem)

theorem adjust_adjust {change : Loop → Loop} (named : ∀ loop, (change loop).name = loop.name)
    (undoes : ∀ loop, change (change loop) = loop) (name : String) (f : Forest) :
    (f.adjust name change).adjust name change = f := by
  refine mapLoops_twice fun loop _ => ?_
  by_cases same : loop.name = name
  · simp [same, named, undoes]
  · simp [same]

section Rename

variable {edit : Loop → Loop} {rename : String → String}

theorem find?_mapLoops (named : ∀ loop, (edit loop).name = rename loop.name)
    (injective : rename.Injective) (name : String) (f : Forest) :
    (f.mapLoops edit).find? (rename name) =
      (f.find? name).map fun t => ⟨edit t.loop, t.computations, t.body.mapLoops edit⟩ := by
  induction f with
  | nil => rfl
  | cons loop own body rest ihBody ihRest =>
    simp only [mapLoops, find?, named, injective.eq_iff]
    split
    · rfl
    · rw [ihBody, ihRest, Option.map_or]

theorem leadsTo_mapLoops (named : ∀ loop, (edit loop).name = rename loop.name)
    (injective : rename.Injective) (name : String) (own : List String) (f : Forest) :
    (f.mapLoops edit).leadsTo (rename name) own = f.leadsTo name own := by
  induction f generalizing own with
  | nil => rfl
  | cons loop inner body rest ihBody _ =>
    cases rest with
    | nil =>
      have same : ((edit loop).name == rename name) = (loop.name == name) := by
        rw [named, Bool.eq_iff_iff, beq_iff_eq, beq_iff_eq, injective.eq_iff]
      simp only [mapLoops, leadsTo, same, ihBody]
    | cons => rfl

end Rename

end Forest

namespace Nest

variable {n m m' : Nest} {a b outer inner : LoopId}

theorem Placed.adjust_back (h : n.Placed) {id : LoopId} (holds : n.Holds id)
    {change : Loop → Loop} (applied : n.adjust id change = .ok m')
    (named : ∀ loop, (change loop).name = loop.name)
    (undoes : ∀ loop, change (change loop) = loop) (placed : m.Placed)
    (loops : m.loops = m'.loops) :
    m.Holds id ∧ m.adjust id change = .ok { m with loops := n.loops } := by
  cases applied.symm.trans (h.adjust_eq holds change)
  replace loops : m.loops = n.loops.adjust id.name change := loops
  have holds' : m.Holds id := by
    obtain ⟨outer, t, way, name, deep⟩ := holds
    rw [Holds, loops]
    refine ⟨_, _, way.mapLoops _, ?_, by rw [List.length_map, deep]⟩
    dsimp only
    rw [if_pos name, named, name]
  refine ⟨holds', ?_⟩
  rw [placed.adjust_eq holds', loops, adjust_adjust named undoes]

section Rename

variable {edit : Loop → Loop} {rename : String → String}

theorem Holds.mapLoops (named : ∀ loop, (edit loop).name = rename loop.name)
    (loops : m.loops = n.loops.mapLoops edit) (holds : n.Holds a) :
    m.Holds ⟨rename a.name, a.level⟩ := by
  obtain ⟨above, t, way, name, deep⟩ := holds
  rw [Holds, loops]
  exact ⟨_, _, way.mapLoops edit, by rw [named, name], by rw [List.length_map, deep]⟩

theorem Around.mapLoops (named : ∀ loop, (edit loop).name = rename loop.name)
    (loops : m.loops = n.loops.mapLoops edit) (around : n.Around a b) :
    m.Around ⟨rename a.name, a.level⟩ ⟨rename b.name, b.level⟩ := by
  obtain ⟨above, t, way, name, mem⟩ := around
  obtain ⟨loop, on, same⟩ := List.mem_map.mp mem
  rw [Around, loops]
  refine ⟨_, _, way.mapLoops edit, by rw [named, name], ?_⟩
  rw [← same, ← named]
  exact List.mem_map_of_mem (List.mem_map_of_mem on)

theorem swappable_mapLoops (named : ∀ loop, (edit loop).name = rename loop.name)
    (injective : rename.Injective) (loops : m.loops = n.loops.mapLoops edit) (a b : LoopId) :
    m.swappable ⟨rename a.name, a.level⟩ ⟨rename b.name, b.level⟩ = n.swappable a b := by
  simp only [swappable, loops, find?_mapLoops named injective]
  cases n.loops.find? a.name with
  | none => rfl
  | some t => exact leadsTo_mapLoops named injective b.name t.computations t.body

end Rename

theorem Placed.exchange_back (h : n.Placed) (holdsOuter : n.Holds outer)
    (holdsInner : n.Holds inner) (less : outer.level < inner.level)
    (swaps : n.swappable outer inner = true) {s t : Tree}
    (foundS : n.loops.find? outer.name = some s) (foundT : n.loops.find? inner.name = some t)
    (placed : m.Placed) (loops : m.loops = n.loops.mapLoops (s.loop.exchange t.loop)) :
    m.Holds ⟨outer.name, inner.level⟩ ∧ m.Holds ⟨inner.name, outer.level⟩ ∧
      (n.Around outer inner → m.Around ⟨inner.name, outer.level⟩ ⟨outer.name, inner.level⟩) ∧
      m.interchange ⟨outer.name, inner.level⟩ ⟨inner.name, outer.level⟩ =
        .ok { m with loops := n.loops } := by
  obtain ⟨memS, nameS⟩ := (find?_eq_some_iff h.names).mp foundS
  obtain ⟨memT, nameT⟩ := (find?_eq_some_iff h.names).mp foundT
  have apart : s.loop.name ≠ t.loop.name := fun same =>
    Nat.ne_of_lt less (congrArg LoopId.level
      (h.eq_of_name_eq holdsOuter holdsInner (nameS.symm.trans (same.trans nameT))))
  have named (loop : Loop) : (s.loop.exchange t.loop loop).name =
      Equiv.swap outer.name inner.name loop.name := by
    rw [Loop.name_exchange, nameS, nameT]
  have injective := (Equiv.swap outer.name inner.name).injective
  have holdsQ := holdsOuter.mapLoops named loops
  have holdsP := holdsInner.mapLoops named loops
  have around := @Around.mapLoops n m outer inner _ _ named loops
  have swappable := swappable_mapLoops named injective loops outer inner
  have foundQ := find?_mapLoops named injective outer.name n.loops
  have foundP := find?_mapLoops named injective inner.name n.loops
  rw [Equiv.swap_apply_left] at holdsQ around swappable foundQ
  rw [Equiv.swap_apply_right] at holdsP around swappable foundP
  refine ⟨holdsP, holdsQ, around, ?_⟩
  have second : ordered ⟨outer.name, inner.level⟩ ⟨inner.name, outer.level⟩ =
      (⟨inner.name, outer.level⟩, ⟨outer.name, inner.level⟩) := if_neg (Nat.lt_asymm less)
  obtain ⟨s', t', foundS', foundT', back⟩ :=
    placed.exchange holdsP holdsQ (by rw [second, swappable, swaps])
  rw [loops, foundP, foundT] at foundS'
  rw [loops, foundQ, foundS] at foundT'
  have restored : s'.loop.exchange t'.loop = s.loop.exchange t.loop := by
    cases foundS'
    cases foundT'
    simp [Loop.exchange, apart.symm]
  rw [back, restored, loops, mapLoops_exchange_exchange h.names memS memT apart]

theorem Placed.interchange_back_of_lt (h : n.Placed) (holdsOuter : n.Holds outer)
    (holdsInner : n.Holds inner) (less : outer.level < inner.level) (around : n.Around outer inner)
    (applied : n.interchange outer inner = .ok m') (placed : m.Placed)
    (loops : m.loops = m'.loops) :
    ∃ p q : LoopId, p.name = outer.name ∧ q.name = inner.name ∧ m.Holds p ∧ m.Holds q ∧
      (Change.interchange p q).Compatible m ∧
      m.interchange p q = .ok { m with loops := n.loops } := by
  have first : ordered outer inner = (outer, inner) := if_pos less
  by_cases swaps : n.swappable outer inner = true
  · obtain ⟨s, t, foundS, foundT, exchanged⟩ :=
      h.exchange holdsOuter holdsInner (by rwa [first])
    cases applied.symm.trans exchanged
    obtain ⟨holdsP, holdsQ, within, back⟩ :=
      h.exchange_back holdsOuter holdsInner less swaps foundS foundT placed loops
    exact ⟨⟨outer.name, inner.level⟩, ⟨inner.name, outer.level⟩, rfl, rfl, holdsP, holdsQ,
      ⟨Nat.ne_of_gt less, .inr (within around)⟩, back⟩
  · -- nothing has been interchanged, and nothing will be
    cases applied.symm.trans (interchange_of_not_swappable (by rwa [first]))
    have same : m = { m with loops := n.loops } := congrArg (Nest.mk · m.computations) loops
    have holds {id : LoopId} (stands : n.Holds id) : m.Holds id := by
      rwa [Holds, loops]
    have around' : m.Around outer inner := by rwa [Around, loops]
    refine ⟨outer, inner, rfl, rfl, holds holdsOuter, holds holdsInner,
      ⟨Nat.ne_of_lt less, .inl around'⟩, ?_⟩
    rw [← same]
    refine interchange_of_not_swappable ?_
    rwa [first, swappable, loops]

/-- An interchange is undone by the interchange of the loops that now have the two names, whichever is
given first. -/
theorem Placed.interchange_back (h : n.Placed) {x y : LoopId} (holdsX : n.Holds x)
    (holdsY : n.Holds y) (fits : (Change.interchange x y).Compatible n)
    (applied : n.interchange x y = .ok m') (placed : m.Placed) (loops : m.loops = m'.loops) :
    ∃ p q : LoopId, p.name = x.name ∧ q.name = y.name ∧ m.Holds p ∧ m.Holds q ∧
      (Change.interchange p q).Compatible m ∧
      m.interchange p q = .ok { m with loops := n.loops } := by
  obtain ⟨levels, around⟩ := fits
  rcases Nat.lt_or_gt_of_ne levels with less | less
  · have outward : n.Around x y := around.resolve_right fun inward =>
      Nat.lt_asymm less (h.level_of_around holdsY holdsX inward)
    exact h.interchange_back_of_lt holdsX holdsY less outward applied placed loops
  · have inward : n.Around y x := around.resolve_left fun outward =>
      Nat.lt_asymm less (h.level_of_around holdsX holdsY outward)
    have turned := (h.interchange_comm holdsY holdsX levels.symm).trans applied
    obtain ⟨q, p, nameQ, nameP, holdsQ, holdsP, ⟨levels', around'⟩, restores⟩ :=
      h.interchange_back_of_lt holdsY holdsX less inward turned placed loops
    exact ⟨p, q, nameP, nameQ, holdsP, holdsQ, ⟨levels'.symm, around'.symm⟩,
      (placed.interchange_comm holdsP holdsQ levels'.symm).trans restores⟩

end Nest

namespace Action

variable {n m : Nest} {a : Action}

/-- After a change other than a fusion, a second one that restores the forest binds and leaves the
nest of before with its order worked out anew. -/
theorem bind_restoring (h : n.Sound)
    (given : ∀ names, a.explicit = some names → names ≠ [] ∧ ∀ name ∈ names, name ∈ n.order)
    {c d : Change} (holds : ∀ id ∈ c.loops, n.Holds id) (fits : c.Compatible n)
    (apart : c.form ≠ .fusion) (applied : c.apply n = .ok m)
    (holds' : ∀ id ∈ d.loops, m.renumber.Holds id) (fits' : d.Compatible m.renumber)
    (restores : d.apply m.renumber = .ok { m.renumber with loops := n.loops }) :
    ∃ again b, bind { a with change := d } m.renumber = .ok again ∧ again.binding = some b ∧
      b.nest = n.renumber := by
  obtain ⟨sound, -, renumbered⟩ := h.renumber_apply holds fits apart applied
  have order : m.renumber.order.Perm n.order := by
    rw [renumbered]
    exact n.order_renumber_perm
  have restored : { m.renumber with loops := n.loops } = n.renumber := by
    rw [renumbered]
    exact congrArg (Nest.mk · n.renumber.computations) h.loops_renumber.symm
  rw [restored] at restores
  obtain ⟨targets, rendering, -, binds⟩ := exists_bind (a := { a with change := d })
    sound.toPlaced.renumber.toPlaced holds' fits' (given_of_perm order given) restores
  exact ⟨_, _, binds, rfl, h.toPlaced.renumber_renumber⟩

theorem bindAll_reversal (h : n.Sound) {id : LoopId} (reverses : a.change = .reversal id)
    (holds : n.Holds id)
    (given : ∀ names, a.explicit = some names → names ≠ [] ∧ ∀ name ∈ names, name ∈ n.order) :
    ∃ bs, bindAll n [a, a] = .ok (bs, n.renumber) := by
  obtain ⟨change, explicit, last⟩ := a
  cases reverses
  have holdsAll {k : Nest} (stands : k.Holds id) :
      ∀ id' ∈ (Change.reversal id).loops, k.Holds id' :=
    fun _ mem => List.mem_singleton.mp mem ▸ stands
  obtain ⟨m, applied, -, -⟩ := h.apply (holdsAll holds) trivial
  have apart : (Change.reversal id).form ≠ .fusion := by simp [Change.form]
  obtain ⟨sound, -, -⟩ := h.renumber_apply (holdsAll holds) trivial apart applied
  have reversed : n.adjust id (fun loop => { loop with reversed := !loop.reversed }) = .ok m :=
    applied
  obtain ⟨holds', restores⟩ := h.adjust_back holds reversed (fun _ => rfl) (fun loop => by simp)
    sound.toPlaced.renumber.toPlaced sound.loops_renumber
  obtain ⟨_, _, -, first⟩ := exists_bind (a := ⟨.reversal id, explicit, last⟩) h.toPlaced
    (holdsAll holds) trivial given applied
  obtain ⟨_, b, second, binding, restored⟩ := bind_restoring (a := ⟨.reversal id, explicit, last⟩)
    h given (holdsAll holds) trivial apart applied (holdsAll holds') trivial restores
  have once := bindAll_concat (rfl : bindAll n [] = .ok ([], n)) first rfl
  exact ⟨_, bindAll_concat once second (by rw [nest?, binding, Option.map_some, restored])⟩

theorem exists_interchange_back (h : n.Sound) {x y : LoopId}
    (interchanges : a.change = .interchange x y) (holdsX : n.Holds x) (holdsY : n.Holds y)
    {bound : Action} (binds : a.bind n = .ok bound) {b : Binding}
    (binding : bound.binding = some b) :
    ∃ p q : LoopId, p.name = x.name ∧ q.name = y.name ∧ b.nest.Holds p ∧ b.nest.Holds q ∧
      ∀ d, d = .interchange p q ∨ d = .interchange q p →
        ∃ again b', bind { a with change := d } b.nest = .ok again ∧ again.binding = some b' ∧
          b'.nest = n.renumber := by
  have holds : ∀ id ∈ a.change.loops, n.Holds id := by
    simp [interchanges, Change.loops, holdsX, holdsY]
  have same := change_of_bind h.toPlaced binds holds
  obtain ⟨change, targets, rendering, m, refers, fits, found, -, applied, rfl⟩ :=
    (bind_eq_ok_iff h.toPlaced).mp binds
  obtain rfl : change = .interchange x y := same.trans interchanges
  cases binding
  have given := (findTargets_ok_iff h.toPlaced refers.holds).mp ⟨targets, found⟩
  have apart : (Change.interchange x y).form ≠ .fusion := by simp [Change.form]
  obtain ⟨sound, -, -⟩ := h.renumber_apply refers.holds fits apart applied
  have placed := sound.toPlaced.renumber.toPlaced
  obtain ⟨p, q, nameP, nameQ, holdsP, holdsQ, fits', restores⟩ :=
    h.interchange_back holdsX holdsY fits applied placed sound.loops_renumber
  refine ⟨p, q, nameP, nameQ, holdsP, holdsQ, fun d turned => ?_⟩
  rcases turned with rfl | rfl
  · exact bind_restoring h given refers.holds fits apart applied
      (by simp [Change.loops, holdsP, holdsQ]) fits' restores
  · have turned := (placed.interchange_comm holdsQ holdsP fits'.1.symm).trans restores
    exact bind_restoring h given refers.holds fits apart applied
      (by simp [Change.loops, holdsP, holdsQ]) ⟨fits'.1.symm, fits'.2.symm⟩ turned

end Action

/-- A reversal of a loop of a reachable nest binds twice, and an interchange that binds to two of
its loops binds again with the same two names, at the levels that they have then. Both leave the
nest of before with its order worked out anew. This is the nest itself exactly if its order is
depth-first. -/
theorem Reachable.bind_undoes {n : Nest} (reached : Reachable n) :
    (∀ (a : Action) (x : LoopId), a.change = .reversal x → n.contains x = true →
      (∀ names, a.explicit = some names → names ≠ [] ∧ ∀ name ∈ names, name ∈ n.order) →
      ∃ bs, Action.bindAll n [a, a] = .ok (bs, n.renumber)) ∧
    (∀ (a bound : Action) (b : Binding) (x y : LoopId), a.change = .interchange x y →
      n.contains x = true → n.contains y = true → a.bind n = .ok bound → bound.binding = some b →
      ∃ p q : LoopId, p.name = x.name ∧ q.name = y.name ∧
        b.nest.contains p = true ∧ b.nest.contains q = true ∧
        ∀ d, d = .interchange p q ∨ d = .interchange q p →
          ∃ again b', Action.bind { a with change := d } b.nest = .ok again ∧
            again.binding = some b' ∧ b'.nest = n.renumber) ∧
    (n.renumber = n ↔ n.DepthFirst) := by
  have h := reached.placed
  refine ⟨fun a x reverses known given => ?_,
    fun a bound b x y interchanges knownX knownY binds binding => ?_,
    reached.sound.renumber_eq_self_iff⟩
  · exact Action.bindAll_reversal reached.sound reverses (h.contains_iff.mp known) given
  · obtain ⟨p, q, nameP, nameQ, holdsP, holdsQ, restores⟩ :=
      Action.exists_interchange_back reached.sound interchanges (h.contains_iff.mp knownX)
        (h.contains_iff.mp knownY) binds binding
    have after : Reachable b.nest :=
      .bound reached binds (by rw [Action.nest?, binding, Option.map_some])
    exact ⟨p, q, nameP, nameQ, after.placed.contains_iff.mpr holdsP,
      after.placed.contains_iff.mpr holdsQ, restores⟩

def reverseOuter : Action where
  change := .reversal ⟨"y", 0⟩

def exchangeRowsBack : Action where
  change := .interchange ⟨"x", 0⟩ ⟨"y", 1⟩

theorem undone_rows :
    (∃ bs, Action.bindAll blurNest [reverseOuter, reverseOuter] = .ok (bs, blurNest)) ∧
    ∃ again b, exchangeRowsBack.bind exchangedRows.nest = .ok again ∧ again.binding = some b ∧
      b.nest = blurNest := by
  obtain ⟨reversals, interchanges, same⟩ := reachable_blur.bind_undoes
  have renumbered : blurNest.renumber = blurNest := by cbv
  rw [renumbered] at reversals interchanges
  refine ⟨reversals reverseOuter ⟨"y", 0⟩ rfl (by decide +kernel) ?_, ?_⟩
  · intro names given
    cases given
  · have after : Reachable exchangedRows.nest := .bound reachable_blur bind_exchangeRows rfl
    have holds {id : LoopId} (known : exchangedRows.nest.contains id = true) :
        exchangedRows.nest.Holds id := after.placed.contains_iff.mp known
    obtain ⟨p, q, nameP, nameQ, knownP, knownQ, restores⟩ := interchanges exchangeRows _ _ ⟨"x", 1⟩
      ⟨"y", 0⟩ rfl (by decide +kernel) (by decide +kernel) bind_exchangeRows rfl
    obtain rfl : p = ⟨"x", 0⟩ :=
      after.placed.eq_of_name_eq (holds knownP) (holds (by decide +kernel)) nameP
    obtain rfl : q = ⟨"y", 1⟩ :=
      after.placed.eq_of_name_eq (holds knownQ) (holds (by decide +kernel)) nameQ
    exact restores _ (.inl rfl)

end LoopNest
