import LoopNest.Proofs.Forest.Enclose

/-! Edits of a forest that leave every loop in its row: loops are changed where they stand, or new
ones are put around one. Each edit is about loops of some names. Where no such loop is, it changes
nothing, and two edits that are about different names can be made in either order. -/
namespace LoopNest

/-- An edit that leaves every loop in its row. -/
inductive Edit where
  | inPlace (change : Loop → Loop)
  | around (name : String) (new : List Loop)

namespace Edit

/-- Makes an edit. -/
def run : Edit → Forest → Forest
  | inPlace change, f => f.mapLoops change
  | around name new, f => f.enclose name new

def new : Edit → List Loop
  | inPlace _ => []
  | around _ new => new

/-- An edit is about loops of these names: it changes no others, and what it changes keeps to these
names. -/
def About (names : List String) : Edit → Prop
  | inPlace change => ∀ loop : Loop,
    (loop.name ∈ names → (change loop).name ∈ names) ∧ (loop.name ∉ names → change loop = loop)
  | around name _ => name ∈ names

end Edit

namespace Forest

variable {change change' : Loop → Loop} {name name' : String} {new new' : List Loop}

theorem mapLoops_append (change : Loop → Loop) (f g : Forest) :
    (f ++ g).mapLoops change = f.mapLoops change ++ g.mapLoops change := by
  induction f with
  | nil => rfl
  | cons loop own body rest _ ih => simp only [cons_append, mapLoops, ih]

theorem mapLoops_nested (change : Loop → Loop) (new : List Loop) (f : Forest) :
    (nested new f).mapLoops change = nested (new.map change) (f.mapLoops change) := by
  induction new with
  | nil => rfl
  | cons loop new ih => exact congrArg (cons (change loop) [] · nil) ih

theorem mapLoops_enclose (named : ∀ loop, (change loop).name = name ↔ loop.name = name)
    (kept : ∀ loop ∈ new, change loop = loop) (f : Forest) :
    (f.enclose name new).mapLoops change = (f.mapLoops change).enclose name new := by
  have same : new.map change = new := (List.map_congr_left kept).trans (List.map_id new)
  induction f with
  | nil => rfl
  | cons loop own body rest ihBody ihRest =>
    rw [mapLoops, enclose, enclose]
    by_cases here : loop.name = name
    · rw [if_pos here, if_pos ((named loop).mpr here), mapLoops_append, mapLoops_nested, same]
      rfl
    · rw [if_neg here, if_neg fun there => here ((named loop).mp there), mapLoops, ihBody, ihRest]

theorem enclose_nested_append {loop : Loop} (differs : loop.name ≠ name)
    (absent : name ∉ new'.map Loop.name) (own : List String) (body rest : Forest) :
    (nested new' (cons loop own body nil) ++ rest).enclose name new =
      nested new' (cons loop own (body.enclose name new) nil) ++ rest.enclose name new := by
  induction new' generalizing rest with
  | nil =>
    have first : nested [] (cons loop own body nil) ++ rest = cons loop own body rest := rfl
    rw [first, enclose, if_neg differs]
    rfl
  | cons top new' ih =>
    rw [List.map_cons, List.mem_cons, not_or] at absent
    have inside := ih absent.2 nil
    rw [append_nil, enclose, append_nil] at inside
    have first : nested (top :: new') (cons loop own body nil) ++ rest =
        cons top [] (nested new' (cons loop own body nil)) rest := rfl
    rw [first, enclose, if_neg (Ne.symm absent.1), inside]
    rfl

/-- New loops can be put around two loops in either order. -/
theorem enclose_comm (differ : name ≠ name') (absent : name ∉ new'.map Loop.name)
    (absent' : name' ∉ new.map Loop.name) (f : Forest) :
    (f.enclose name new).enclose name' new' = (f.enclose name' new').enclose name new := by
  induction f with
  | nil => rfl
  | cons loop own body rest ihBody ihRest =>
    by_cases first : loop.name = name
    · have second : loop.name ≠ name' := first ▸ differ
      rw [enclose, if_pos first, enclose_nested_append second absent', enclose, if_neg second,
        enclose, if_pos first]
    · by_cases second : loop.name = name'
      · rw [enclose, if_neg first, enclose, if_pos second, enclose, if_pos second,
          enclose_nested_append first absent]
      · simp only [enclose, first, second, if_false, ihBody, ihRest]

end Forest

namespace Edit

open Forest

variable {e e' : Edit} {names names' : List String}

theorem name_eq_iff {change : Loop → Loop} (about : (inPlace change).About names) {name : String}
    (apart : name ∉ names) (loop : Loop) : (change loop).name = name ↔ loop.name = name := by
  by_cases mem : loop.name ∈ names
  · have moved := (about loop).1 mem
    exact ⟨fun same => absurd (same ▸ moved) apart, fun same => absurd (same ▸ mem) apart⟩
  · rw [(about loop).2 mem]

theorem change_comm {change change' : Loop → Loop} (about : (inPlace change).About names)
    (about' : (inPlace change').About names') (disjoint : names.Disjoint names') (loop : Loop) :
    change' (change loop) = change (change' loop) := by
  by_cases mem : loop.name ∈ names
  · rw [(about' loop).2 (disjoint mem), (about' _).2 (disjoint ((about loop).1 mem))]
  · rw [(about loop).2 mem]
    by_cases mem' : loop.name ∈ names'
    · rw [(about _).2 fun among => disjoint among ((about' loop).1 mem')]
    · rw [(about' loop).2 mem', (about loop).2 mem]

theorem change_new {change : Loop → Loop} (about : (inPlace change).About names) {new : List Loop}
    (fresh : names.Disjoint (new.map Loop.name)) : ∀ loop ∈ new, change loop = loop :=
  fun loop mem => (about loop).2 fun among => fresh among (List.mem_map_of_mem mem)

/-- Edits that are about different names can be made in either order. -/
theorem run_comm (about : e.About names) (about' : e'.About names')
    (disjoint : names.Disjoint names') (fresh : names'.Disjoint (e.new.map Loop.name))
    (fresh' : names.Disjoint (e'.new.map Loop.name)) (f : Forest) :
    e'.run (e.run f) = e.run (e'.run f) := by
  cases e with
  | inPlace change =>
    cases e' with
    | inPlace change' =>
      simp only [run, mapLoops_mapLoops]
      exact mapLoops_congr fun loop _ => change_comm about about' disjoint loop
    | around name new =>
      have named := name_eq_iff about fun mem => disjoint mem about'
      exact (mapLoops_enclose named (change_new about fresh') f).symm
  | around name new =>
    cases e' with
    | inPlace change =>
      have named := name_eq_iff about' fun mem => disjoint about mem
      exact mapLoops_enclose named (change_new about' fresh) f
    | around name' new' =>
      have differ : name ≠ name' := fun same => disjoint about (same ▸ about')
      exact enclose_comm differ (fun mem => fresh' about mem) (fun mem => fresh about' mem) f

/-- An edit leaves a loop where it is if it is about no loop around it, inside it or itself. -/
theorem run_way (about : e.About names) {f : Forest} (unique : f.names.Nodup) {outer : List Loop}
    {t : Tree} (way : Way f outer t) (above : names.Disjoint ((outer ++ [t.loop]).map Loop.name))
    (below : names.Disjoint t.body.names) : Way (e.run f) outer t := by
  cases e with
  | inPlace change =>
    have moved := way.mapLoops change
    have kept : ∀ loop ∈ outer ++ [t.loop], change loop = loop := fun loop mem =>
      (about loop).2 fun among => above among (List.mem_map_of_mem mem)
    have path : outer.map change = outer :=
      (List.map_congr_left fun loop mem => kept loop (List.mem_append_left _ mem)).trans
        (List.map_id outer)
    have body : t.body.mapLoops change = t.body := mapLoops_eq_self fun loop mem =>
      (about loop).2 fun among => below among (List.mem_map_of_mem mem)
    rwa [path, body, kept t.loop (by simp)] at moved
  | around name new =>
    have apart : name ∉ (outer ++ [t.loop]).map Loop.name := fun mem => above about mem
    rw [List.map_append, List.mem_append, not_or] at apart
    have moved := way.enclose_other unique (by simpa [eq_comm] using apart.2) new
    rwa [insertBefore_of_notMem apart.1, enclose_of_notMem fun mem => below about mem] at moved

end Edit
end LoopNest
