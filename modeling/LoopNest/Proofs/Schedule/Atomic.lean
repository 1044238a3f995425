import LoopNest.Proofs.Schedule.Calls
import LoopNest.Proofs.Schedule.Draft

/-! Calls that fail leave no trace in the schedule. A batch stops at the first action that cannot be
bound or is not found legal, when part of the longer schedule has already been drafted; the draft is
dropped then. A batch that succeeds adds all its actions in order. -/
namespace LoopNest

/-- Why a draft takes an action no more, in a state of the backend: the action cannot be bound, or
the backend is asked about the longer draft and fails or refuses it. -/
inductive Schedule.Blocks {σ τ : Type} (b : Backend σ τ) (d : Schedule) (state : σ) (a : Action) :
    Schedule.Error → Prop where
  | unbound {e : Action.Error} (fails : d.offer a = .error e) : Blocks b d state a (.action e)
  | unanswered {longer : Schedule} {bound : Action} {e : Backend.Error}
    (offered : d.offer a = .ok (bound, longer)) (wanted : longer.settings.checkEach = true)
    (answer : (b.check longer.program longer.legality state).1 = .error e) :
    Blocks b d state a (.backend e)
  | refused {longer : Schedule} {bound : Action} {reason : String}
    (offered : d.offer a = .ok (bound, longer)) (wanted : longer.settings.checkEach = true)
    (answer : (b.check longer.program longer.legality state).1 = .ok (.illegal reason)) :
    Blocks b d state a (.illegal (bound.text ++ ": " ++ reason))

/-- A batch stops: some of its actions come through, and the one after them is blocked. -/
def Schedule.Stops {σ τ : Type} (b : Backend σ τ) (s : Schedule) (state : σ)
    (actions : List Action) (e : Schedule.Error) : Prop :=
  ∃ before a rest more next, actions = before ++ a :: rest ∧ s.offerAll before = .ok more ∧
    b.Grants state (s.settings.asks (more.map Prod.snd)) next ∧ (s.after more).Blocks b next a e

theorem Schedule.Blocks.stops {σ τ : Type} {b : Backend σ τ} {d : Schedule} {state : σ} {a : Action}
    {e : Schedule.Error} (blocked : d.Blocks b state a e) (rest : List Action) :
    d.Stops b state (a :: rest) e :=
  ⟨[], a, rest, [], state, rfl, rfl, by simpa using .nil, blocked⟩

namespace Session

variable {σ τ : Type} {b : Backend σ τ} {s t : Session σ τ} {draft longer : Schedule}
  {actions : List Action} {e : Schedule.Error}

theorem draftAll_append {before : List Action} (rest : List Action)
    (drafted : draftAll b before draft s = (.ok longer, t)) :
    draftAll b (before ++ rest) draft s = draftAll b rest longer t := by
  fun_induction draftAll b before draft s with
  | case1 =>
    cases drafted
    rfl
  | case2 | case3 | case4 => cases drafted
  | case5 a more draft s bound next offered u asked ih =>
    simp only [List.cons_append, draftAll, offered, asked]
    exact ih drafted

/-- A batch that fails has stopped somewhere. -/
theorem stops_of_draftAll (failed : (draftAll b actions draft s).1 = .error e) :
    draft.Stops b s.backend actions e := by
  fun_induction draftAll b actions draft s with
  | case1 => cases failed
  | case2 a rest draft s e fails =>
    cases failed
    exact Schedule.Blocks.stops (.unbound fails) rest
  | case3 a rest draft s bound next offered e t asked =>
    cases failed
    obtain ⟨wanted, answer, said, verdict, -⟩ := check_of_askEach asked (by simp)
    obtain ⟨e, rfl, rfl⟩ := Except.mapError_eq_error_iff.mp verdict.symm
    exact Schedule.Blocks.stops (.unanswered offered wanted said) rest
  | case4 a rest draft s bound next offered reason t asked =>
    cases failed
    obtain ⟨wanted, answer, said, verdict, -⟩ := check_of_askEach asked (by simp)
    cases Except.mapError_eq_ok_iff.mp verdict.symm
    exact Schedule.Blocks.stops (.refused offered wanted said) rest
  | case5 a rest draft s bound next offered u asked ih =>
    obtain ⟨before, a', rest', more, state, rfl, others, grants, blocked⟩ := ih failed
    have passes := passes_of_askEach asked
    refine ⟨a :: before, a', rest', (bound, next) :: more, state, rfl,
      Schedule.offerAll_cons_eq_ok_iff.mpr ⟨bound, next, more, offered, others, rfl⟩, ?_, ?_⟩
    · rw [List.map_cons, Settings.asks_cons, ← Schedule.settings_of_offer offered]
      exact Backend.grants_append_iff.mpr ⟨u.backend, passes.grants, grants⟩
    · rwa [Schedule.after_cons]

theorem draftAll_of_stops (stops : draft.Stops b s.backend actions e) :
    (draftAll b actions draft s).1 = .error e := by
  obtain ⟨before, a, rest, more, state, rfl, offered, grants, blocked⟩ := stops
  obtain ⟨t, drafted, rfl⟩ := draftAll_of_grants offered grants
  rw [draftAll_append (a :: rest) drafted]
  cases blocked with
  | unbound fails => rw [draftAll, fails]
  | unanswered offered wanted said =>
    obtain ⟨u, asked⟩ := askEach_of_check wanted said
    simp only [draftAll, offered, asked, Except.mapError]
  | refused offered wanted said =>
    obtain ⟨u, asked⟩ := askEach_of_check wanted said
    simp only [draftAll, offered, asked, Except.mapError]

theorem add_eq_error_iff :
    (s.add b actions).1 = .error e ↔ (draftAll b actions s.schedule s).1 = .error e := by
  rcases drafted : draftAll b actions s.schedule s with ⟨e' | longer, t⟩ <;> simp [add, drafted]

theorem schedule_of_add_error (failed : (s.add b actions).1 = .error e) :
    (s.add b actions).2.schedule = s.schedule := by
  have same := schedule_draftAll b actions s.schedule s
  rcases drafted : draftAll b actions s.schedule s with ⟨e' | longer, t⟩
  · rw [drafted] at same
    rw [add, drafted]
    exact same
  · simp [add, drafted] at failed

theorem schedule_apply (b : Backend σ τ) (a : Action) (s : Session σ τ)
    (refused : (s.apply b a).1 ≠ .ok .accepted) : (s.apply b a).2.schedule = s.schedule := by
  fun_cases Session.apply b a s with
  | case1 => rfl
  | case2 _ _ _ _ _ asked => exact schedule_of_ask asked
  | case3 bound longer offered t asked => simp [Session.apply, offered, asked] at refused
  | case4 _ _ _ _ _ asked => exact (schedule_log _ _ _).trans (schedule_of_ask asked)

theorem schedule_isLegal (b : Backend σ τ) (s : Session σ τ) :
    (s.isLegal b).2.schedule = s.schedule := by
  fun_cases Session.isLegal b s with
  | case1 _ _ asked => exact schedule_of_ask asked
  | case2 _ _ asked => exact schedule_of_ask asked

theorem schedule_executeUnchecked (b : Backend σ τ) (runs : Nat) (s : Session σ τ) :
    (s.executeUnchecked b runs).2.schedule = s.schedule := rfl

theorem schedule_execute (b : Backend σ τ) (runs : Nat) (s : Session σ τ) :
    (s.execute b runs).2.schedule = s.schedule := by
  fun_cases Session.execute b runs s with
  | case1 _ _ _ asked => exact schedule_of_ask asked
  | case2 _ _ _ asked => exact schedule_of_ask asked
  | case3 _ _ asked => exact (schedule_executeUnchecked b runs _).trans (schedule_of_ask asked)
  | case4 => rfl

/-- Calls are atomic. An action that is not accepted, a batch that stops and questions about the
schedule leave the schedule as it is, whatever the backend answers. A batch stops just where an
action cannot be bound, or where the backend is asked and fails or refuses. A batch that does not
stop appends all its actions, in order, each bound to the nest that the ones before it leave. -/
theorem atomic (b : Backend σ τ) (s : Session σ τ) :
    (∀ a, (s.apply b a).1 ≠ .ok .accepted → (s.apply b a).2.schedule = s.schedule) ∧
    (∀ actions e, (s.add b actions).1 = .error e → (s.add b actions).2.schedule = s.schedule) ∧
    (∀ actions e, (s.add b actions).1 = .error e ↔ s.schedule.Stops b s.backend actions e) ∧
    (s.isLegal b).2.schedule = s.schedule ∧
    (∀ runs, (s.execute b runs).2.schedule = s.schedule) ∧
    (s.run b).2.schedule = s.schedule ∧
    ∀ actions, (s.add b actions).1 = .ok () →
      ∃ bound last, Action.bindAll s.schedule.nest actions = .ok (bound, last) ∧
        bound.length = actions.length ∧
        (s.add b actions).2.schedule.actions = s.schedule.actions ++ bound ∧
        (s.add b actions).2.schedule.nest = last ∧
        (s.add b actions).2.schedule.settings = s.schedule.settings := by
  refine ⟨fun a => schedule_apply b a s, fun actions e => schedule_of_add_error,
    fun actions e => ?_, schedule_isLegal b s, fun runs => schedule_execute b runs s,
    schedule_execute b _ s, fun actions added => ?_⟩
  · rw [add_eq_error_iff]
    exact ⟨stops_of_draftAll, draftAll_of_stops⟩
  · obtain ⟨more, offered, longer, -⟩ := passes_add added
    obtain ⟨appended, length, settings⟩ := Schedule.actions_of_offerAll offered
    rw [longer]
    exact ⟨_, _, Schedule.bindAll_of_offerAll offered, by simpa using length, appended, rfl,
      settings⟩

end Session

def eachBlur : Session Nat Unit where
  schedule := { nest := blurNest, settings := { checkEach := true } }
  backend := 0

def reverseNone : Action where
  change := .reversal ⟨"w", 0⟩

theorem atomic_eachBlur :
    let refusal := Schedule.Error.illegal "R(L0,comps=['rows']): once only"
    (eachBlur.apply onceLegal reverseNone).2.schedule = eachBlur.schedule ∧
      (eachBlur.add onceLegal [tileRows, reverseRows]).1 = .error refusal ∧
      (eachBlur.add onceLegal [tileRows, reverseRows]).2.schedule = eachBlur.schedule ∧
      eachBlur.schedule.Stops onceLegal 0 [tileRows, reverseRows] refusal ∧
      (eachBlur.add onceLegal [tileRows]).1 = .ok () ∧
      (eachBlur.add onceLegal [tileRows]).2.schedule.nest = tiledNest := by
  intro refusal
  obtain ⟨single, unchanged, stops, -, -, -, appends⟩ := Session.atomic onceLegal eachBlur
  have fails : (eachBlur.apply onceLegal reverseNone).1 =
      .error (.action (.notFound (.unknownComputation "w"))) := by cbv
  have unbound : (eachBlur.apply onceLegal reverseNone).1 ≠ .ok .accepted := by simp [fails]
  have refused : (eachBlur.add onceLegal [tileRows, reverseRows]).1 = .error refusal := by
    cbv
  have added : (eachBlur.add onceLegal [tileRows]).1 = .ok () := by cbv
  refine ⟨single _ unbound, refused, unchanged _ _ refused, (stops _ _).mp refused, added, ?_⟩
  obtain ⟨bound, last, binds, -, -, nest, -⟩ := appends _ added
  have same : Action.bindAll blurNest [tileRows] =
      .ok ([{ tileRows with binding := some tiledRows }], tiledNest) := by cbv
  cases same.symm.trans binds
  exact nest

end LoopNest
