import LoopNest.Schedule.Basic
import LoopNest.Proofs.Action.Rebind
import LoopNest.Proofs.Reachable

/-! How schedules grow: one action at a time, each bound to the nest that the ones before it leave.
A schedule that grows from an empty one keeps its parts together: its programs are those of its
actions in order, its nest is the one that the last action leaves, and its actions can be bound
again one after the other. -/
namespace LoopNest
namespace Schedule

variable {s t longer : Schedule} {a bound : Action}

theorem offer_eq_ok_iff :
    s.offer a = .ok (bound, longer) ↔
      a.bind s.nest = .ok bound ∧
        ∃ binding, bound.binding = some binding ∧ longer = s.extend bound binding := by
  simp only [offer, Action.bind, Except.bind_eq_ok_iff, Except.pure_eq_ok_iff, Prod.exists]
  constructor
  · rintro ⟨change, binding, binds, same⟩
    cases same
    exact ⟨⟨change, binding, binds, rfl⟩, binding, rfl, rfl⟩
  · rintro ⟨⟨change, binding, binds, rfl⟩, binding', same, rfl⟩
    cases same
    exact ⟨change, binding, binds, rfl⟩

/-- Offers actions one by one. Gives each of them bound, with the schedule that it leads to. -/
def offerAll (s : Schedule) : List Action → Except Action.Error (List (Action × Schedule))
  | [] => .ok []
  | a :: rest => do
    let (bound, longer) ← s.offer a
    let more ← longer.offerAll rest
    return (bound, longer) :: more

def after (s : Schedule) (more : List (Action × Schedule)) : Schedule :=
  (more.getLast?.map Prod.snd).getD s

@[simp] theorem after_nil (s : Schedule) : s.after [] = s := rfl

@[simp] theorem after_cons (s : Schedule) (next : Action × Schedule)
    (more : List (Action × Schedule)) : s.after (next :: more) = next.2.after more := by
  rw [after, after, List.getLast?_cons]
  cases more.getLast? with
  | none => rfl
  | some _ => rfl

theorem offerAll_cons_eq_ok_iff {rest : List Action} {more : List (Action × Schedule)} :
    s.offerAll (a :: rest) = .ok more ↔
      ∃ bound longer behind, s.offer a = .ok (bound, longer) ∧
        longer.offerAll rest = .ok behind ∧ more = (bound, longer) :: behind := by
  simp only [offerAll, Except.bind_eq_ok_iff, Except.pure_eq_ok_iff, Prod.exists]
  constructor
  · rintro ⟨bound, longer, offered, behind, others, rfl⟩
    exact ⟨bound, longer, behind, offered, others, rfl⟩
  · rintro ⟨bound, longer, behind, offered, others, rfl⟩
    exact ⟨bound, longer, offered, behind, others, rfl⟩

theorem after_append (s : Schedule) (more behind : List (Action × Schedule)) :
    s.after (more ++ behind) = (s.after more).after behind := by
  induction more generalizing s with
  | nil => rfl
  | cons next more ih => rw [List.cons_append, after_cons, after_cons, ih]

theorem offerAll_append_eq_ok_iff {as bs : List Action} {more : List (Action × Schedule)} :
    s.offerAll (as ++ bs) = .ok more ↔
      ∃ first second, s.offerAll as = .ok first ∧ (s.after first).offerAll bs = .ok second ∧
        more = first ++ second := by
  induction as generalizing s more with
  | nil =>
    constructor
    · intro offered
      exact ⟨[], more, rfl, offered, rfl⟩
    · rintro ⟨first, second, same, offered, rfl⟩
      cases same
      exact offered
  | cons a as ih =>
    rw [List.cons_append, offerAll_cons_eq_ok_iff]
    constructor
    · rintro ⟨bound, longer, behind, offered, others, rfl⟩
      obtain ⟨first, second, begun, ended, rfl⟩ := ih.mp others
      exact ⟨_, second, offerAll_cons_eq_ok_iff.mpr ⟨bound, longer, first, offered, begun, rfl⟩,
        by rwa [after_cons], rfl⟩
    · rintro ⟨_, second, begun, ended, rfl⟩
      obtain ⟨bound, longer, first, offered, others, rfl⟩ := offerAll_cons_eq_ok_iff.mp begun
      rw [after_cons] at ended
      exact ⟨bound, longer, first ++ second, offered, ih.mpr ⟨first, second, others, ended, rfl⟩,
        rfl⟩

theorem settings_of_offer (offered : s.offer a = .ok (bound, longer)) :
    longer.settings = s.settings := by
  obtain ⟨-, binding, -, rfl⟩ := offer_eq_ok_iff.mp offered
  rfl

theorem actions_of_offerAll {actions : List Action} {more : List (Action × Schedule)}
    (offered : s.offerAll actions = .ok more) :
    (s.after more).actions = s.actions ++ more.map Prod.fst ∧
      more.length = actions.length ∧ (s.after more).settings = s.settings := by
  induction actions generalizing s more with
  | nil =>
    cases offered
    simp
  | cons a rest ih =>
    obtain ⟨bound, longer, behind, first, others, rfl⟩ := offerAll_cons_eq_ok_iff.mp offered
    obtain ⟨appended, length, settings⟩ := ih others
    have same := settings_of_offer first
    obtain ⟨-, binding, -, rfl⟩ := offer_eq_ok_iff.mp first
    refine ⟨?_, by simp [length], by rw [after_cons, settings, same]⟩
    rw [after_cons, appended]
    simp [extend]

theorem bindAll_of_offerAll {actions : List Action} {more : List (Action × Schedule)}
    (offered : s.offerAll actions = .ok more) :
    Action.bindAll s.nest actions = .ok (more.map Prod.fst, (s.after more).nest) := by
  induction actions generalizing s more with
  | nil =>
    cases offered
    rfl
  | cons a rest ih =>
    obtain ⟨bound, longer, behind, first, others, rfl⟩ := offerAll_cons_eq_ok_iff.mp offered
    have rows := ih others
    obtain ⟨binds, binding, found, rfl⟩ := offer_eq_ok_iff.mp first
    have next : bound.nest?.getD s.nest = (s.extend bound binding).nest := by
      rw [Action.nest?, found]
      rfl
    rw [after_cons, Action.bindAll]
    simp only [Except.bind_eq_ok_iff]
    exact ⟨bound, binds, _, by rwa [next], rfl⟩

/-- A schedule can grow into another by actions that are offered one after the other. -/
inductive Grows : Schedule → Schedule → Prop where
  | refl {s : Schedule} : Grows s s
  | offer {s t longer : Schedule} {a bound : Action} (grows : Grows s t)
    (offered : t.offer a = .ok (bound, longer)) : Grows s longer

/-- What a schedule that started on a nest holds fits together. -/
structure Coherent (origin : Nest) (s : Schedule) : Prop where
  reached : Reachable s.nest
  program : ∃ renderings : List Rendering,
    s.actions.map Action.rendering = renderings.map .ok ∧
      s.program = String.join (renderings.map Rendering.program)
  legality : s.legality = s.program
  unchanged : s.actions = [] → s.nest = origin
  last : ∀ a, s.actions.getLast? = some a → a.nest? = some s.nest
  /-- Bound again one after the other, the actions and the nest come out as they are. -/
  again : Action.bindAll origin s.actions = .ok (s.actions, s.nest)

theorem coherent_start {origin : Nest} (reached : Reachable origin) (settings : Settings) :
    Coherent origin { nest := origin, settings } where
  reached := reached
  program := ⟨[], rfl, rfl⟩
  legality := rfl
  unchanged _ := rfl
  last := by simp
  again := rfl

/-- An action that is offered keeps a schedule coherent. -/
theorem Coherent.offer {origin : Nest} (coherent : Coherent origin s)
    (offered : s.offer a = .ok (bound, longer)) : Coherent origin longer := by
  obtain ⟨binds, binding, found, rfl⟩ := offer_eq_ok_iff.mp offered
  have h := coherent.reached.placed
  have changed : bound.nest? = some binding.nest := by rw [Action.nest?, found, Option.map_some]
  have legality : binding.rendering.legality = binding.rendering.program := by
    obtain ⟨change, targets, rendering, m, -, -, -, rendered, -, rfl⟩ :=
      (Action.bind_eq_ok_iff h).mp binds
    cases found
    exact Change.legality_of_render rendered
  obtain ⟨renderings, rendered, program⟩ := coherent.program
  exact {
    reached := .bound coherent.reached binds changed
    program := ⟨renderings ++ [binding.rendering],
      by simp [extend, rendered, Action.rendering, found],
      by simp [extend, program, String.join_append]⟩
    legality := by simp [extend, coherent.legality, legality]
    unchanged := by simp [extend]
    last := by simpa [extend] using changed
    again := Action.bindAll_concat coherent.again (Action.bind_bound h binds) changed }

theorem Grows.coherent {origin : Nest} (grows : s.Grows t) (coherent : Coherent origin s) :
    Coherent origin t := by
  induction grows with
  | refl => exact coherent
  | offer _ offered ih => exact ih.offer offered

end Schedule
end LoopNest
