import LoopNest.Proofs.Schedule.Atomic

/-! The record of a session. Each call adds its events behind those before, and the backend answers
as they say. Only executing adds an execution. It stands at the end of what the call adds, it is
that of the schedule's program, and if the settings want to know first, nothing is asked of the
backend between it and the question about that program. -/
namespace LoopNest

deriving instance DecidableEq for Event

namespace Event

variable {τ : Type}

def isCall : Event τ → Bool
  | logged _ _ => false
  | checked _ _ _ | executed _ _ _ => true

def isExecution : Event τ → Bool
  | executed _ _ _ => true
  | logged _ _ | checked _ _ _ => false

end Event

def lastCall? {τ : Type} (events : List (Event τ)) : Option (Event τ) :=
  (events.filter Event.isCall).getLast?

theorem lastCall?_append {τ : Type} {events events' : List (Event τ)} {call : Event τ}
    (last : lastCall? events' = some call) : lastCall? (events ++ events') = some call := by
  rw [lastCall?, List.filter_append, List.getLast?_append]
  rw [lastCall?] at last
  rw [last, Option.some_or]

/-- Events say what the backend answers, question by question, as it goes from one state to
another. -/
inductive Backend.Answers {σ τ : Type} (b : Backend σ τ) : σ → List (Event τ) → σ → Prop where
  | nil {state : σ} : Answers b state [] state
  | logged {state last : σ} {level : LogLevel} {text : String} {events : List (Event τ)}
    (others : Answers b state events last) : Answers b state (.logged level text :: events) last
  | checked {state next last : σ} {program legality : String} {events : List (Event τ)}
    {answer : Except Backend.Error Verdict}
    (said : b.check program legality state = (answer, next)) (others : Answers b next events last) :
    Answers b state (.checked program legality answer :: events) last
  | executed {state next last : σ} {program : String} {runs : Nat} {events : List (Event τ)}
    {answer : Except Backend.Error (List τ)}
    (said : b.execute program runs state = (answer, next)) (others : Answers b next events last) :
    Answers b state (.executed program runs answer :: events) last

theorem Backend.Answers.append {σ τ : Type} {b : Backend σ τ} {state mid last : σ}
    {events events' : List (Event τ)} (front : b.Answers state events mid)
    (back : b.Answers mid events' last) : b.Answers state (events ++ events') last := by
  induction front with
  | nil => exact back
  | logged _ ih => exact .logged (ih back)
  | checked said _ ih => exact .checked said (ih back)
  | executed said _ ih => exact .executed said (ih back)

def Schedule.clearance {τ : Type} (d : Schedule) : Event τ :=
  .checked d.program d.legality (.ok .legal)

/-- What a call may add to the record of a session with a schedule: no execution, or one at the end,
of the schedule's program. If the settings want to know first, the call before it is the question
about the program, answered that it is legal. -/
inductive Schedule.Gated {τ : Type} (d : Schedule) : List (Event τ) → Prop where
  | quiet {events : List (Event τ)} (none_executed : ∀ e ∈ events, e.isExecution = false) :
    Gated d events
  | executes {events : List (Event τ)} {runs : Nat} {answer : Except Backend.Error (List τ)}
    (none_before : ∀ e ∈ events, e.isExecution = false)
    (cleared : d.settings.checkFirst = true → lastCall? events = some d.clearance) :
    Gated d (events ++ [.executed d.program runs answer])

namespace Session

variable {σ τ : Type} {b : Backend σ τ} {s t u : Session σ τ}

/-- From one session to another just these events happen, and the backend answers as they say. -/
structure Happens (b : Backend σ τ) (events : List (Event τ)) (s t : Session σ τ) : Prop where
  trace : t.trace = s.trace ++ events
  answers : b.Answers s.backend events t.backend

theorem Happens.refl : Happens b [] s s := ⟨by simp, .nil⟩

theorem Happens.trans {events events' : List (Event τ)} (front : Happens b events s t)
    (back : Happens b events' t u) : Happens b (events ++ events') s u where
  trace := by rw [back.trace, front.trace, List.append_assoc]
  answers := front.answers.append back.answers

theorem Happens.keep {events : List (Event τ)} (happens : Happens b events s t) (d : Schedule) :
    Happens b events s { t with schedule := d } :=
  ⟨happens.trace, happens.answers⟩

def Quietly (b : Backend σ τ) (s t : Session σ τ) : Prop :=
  ∃ events, Happens b events s t ∧ ∀ e ∈ events, e.isExecution = false

theorem Quietly.refl : Quietly b s s := ⟨[], .refl, by simp⟩

theorem Quietly.trans (front : Quietly b s t) (back : Quietly b t u) : Quietly b s u := by
  obtain ⟨events, happens, quiet⟩ := front
  obtain ⟨events', happens', quiet'⟩ := back
  refine ⟨events ++ events', happens.trans happens', fun e mem => ?_⟩
  exact (List.mem_append.mp mem).elim (quiet e) (quiet' e)

theorem Quietly.keep (quietly : Quietly b s t) (d : Schedule) :
    Quietly b s { t with schedule := d } := by
  obtain ⟨events, happens, quiet⟩ := quietly
  exact ⟨events, happens.keep d, quiet⟩

theorem happens_log (b : Backend σ τ) (s : Session σ τ) (level : LogLevel) (text : String) :
    Happens b [.logged level text] s (s.log level text) :=
  ⟨rfl, .logged .nil⟩

theorem quietly_log (b : Backend σ τ) (s : Session σ τ) (level : LogLevel) (text : String) :
    Quietly b s (s.log level text) :=
  ⟨_, happens_log b s level text, by simp [Event.isExecution]⟩

theorem happens_ask {program legality : String} {verdict : Except Schedule.Error Verdict}
    (asked : s.ask b program legality = (verdict, t)) :
    ∃ answer, verdict = answer.mapError .backend ∧
      Happens b [.checked program legality answer] s t := by
  cases asked
  exact ⟨_, rfl, rfl, .checked rfl .nil⟩

theorem quietly_ask {program legality : String} {verdict : Except Schedule.Error Verdict}
    (asked : s.ask b program legality = (verdict, t)) : Quietly b s t := by
  obtain ⟨answer, -, happens⟩ := happens_ask asked
  exact ⟨_, happens, by simp [Event.isExecution]⟩

theorem quietly_askEach {draft : Schedule} {verdict : Except Schedule.Error Verdict}
    (asked : s.askEach b draft = (verdict, t)) : Quietly b s t := by
  rcases of_askEach asked with ⟨-, asked⟩ | ⟨-, -, rfl⟩
  · exact quietly_ask asked
  · exact .refl

theorem quietly_apply (b : Backend σ τ) (a : Action) (s : Session σ τ) :
    Quietly b s (s.apply b a).2 := by
  fun_cases Session.apply b a s with
  | case1 => exact .refl
  | case2 _ _ _ _ _ asked => exact quietly_ask asked
  | case3 _ longer _ _ asked => exact ((quietly_ask asked).trans (quietly_log b _ _ _)).keep longer
  | case4 _ _ _ _ _ asked => exact (quietly_ask asked).trans (quietly_log b _ _ _)

theorem quietly_draftAll (b : Backend σ τ) (actions : List Action) (draft : Schedule)
    (s : Session σ τ) : Quietly b s (draftAll b actions draft s).2 := by
  fun_induction draftAll b actions draft s with
  | case1 => exact .refl
  | case2 => exact .refl
  | case3 _ _ _ _ _ _ _ _ _ asked => exact quietly_askEach asked
  | case4 _ _ _ _ _ _ _ _ _ asked => exact quietly_askEach asked
  | case5 _ _ _ _ _ _ _ _ asked ih =>
    exact ((quietly_askEach asked).trans (quietly_log b _ _ _)).trans ih

theorem quietly_add (b : Backend σ τ) (actions : List Action) (s : Session σ τ) :
    Quietly b s (s.add b actions).2 := by
  have drafting := quietly_draftAll b actions s.schedule s
  rcases drafted : draftAll b actions s.schedule s with ⟨e | longer, t⟩
  · rw [drafted] at drafting
    rw [add, drafted]
    exact drafting
  · rw [drafted] at drafting
    rw [add_of_draftAll drafted]
    exact (drafting.trans (quietly_log b _ _ _)).keep longer

theorem quietly_isLegal (b : Backend σ τ) (s : Session σ τ) : Quietly b s (s.isLegal b).2 := by
  fun_cases Session.isLegal b s with
  | case1 _ _ asked => exact quietly_ask asked
  | case2 _ _ asked => exact quietly_ask asked

theorem happens_executeUnchecked (b : Backend σ τ) (runs : Nat) (s : Session σ τ) :
    ∃ text answer, Happens b [.logged .debug text, .executed s.schedule.program runs answer] s
      (s.executeUnchecked b runs).2 :=
  ⟨_, _, List.append_assoc s.trace [_] [_], .logged (.executed rfl .nil)⟩

theorem gated_execute (b : Backend σ τ) (runs : Nat) (s : Session σ τ) :
    ∃ events, Happens b events s (s.execute b runs).2 ∧ s.schedule.Gated events := by
  fun_cases Session.execute b runs s with
  | case1 _ _ _ asked =>
    obtain ⟨events, happens, quiet⟩ := quietly_ask asked
    exact ⟨events, happens, .quiet quiet⟩
  | case2 _ _ _ asked =>
    obtain ⟨events, happens, quiet⟩ := quietly_ask asked
    exact ⟨events, happens, .quiet quiet⟩
  | case3 _ t asked =>
    -- the question was answered that the program is legal, and only a log line comes between
    obtain ⟨answer, verdict, happens⟩ := happens_ask asked
    cases Except.mapError_eq_ok_iff.mp verdict.symm
    obtain ⟨text, times, executes⟩ := happens_executeUnchecked b runs t
    rw [schedule_of_ask asked] at executes
    have none_before : ∀ e ∈ ([s.schedule.clearance, .logged .debug text] : List (Event τ)),
        e.isExecution = false := by
      simp [Event.isExecution, Schedule.clearance]
    exact ⟨_, happens.trans executes, .executes none_before fun _ => rfl⟩
  | case4 unwanted =>
    obtain ⟨text, times, executes⟩ := happens_executeUnchecked b runs s
    have none_before : ∀ e ∈ ([.logged .debug text] : List (Event τ)), e.isExecution = false := by
      simp [Event.isExecution]
    exact ⟨_, executes, .executes none_before fun wanted => absurd wanted unwanted⟩

/-- What a call adds to the record. A call that executes leaves the schedule as it is. -/
theorem gated_step (b : Backend σ τ) (s : Session σ τ) (call : Call) :
    ∃ events, Happens b events s (s.step b call) ∧ s.schedule.Gated events ∧
      (∀ e ∈ events, e.isExecution = true → (s.step b call).schedule = s.schedule) := by
  have quiet {t : Session σ τ} (quietly : Quietly b s t) :
      ∃ events, Happens b events s t ∧ s.schedule.Gated events ∧
        ∀ e ∈ events, e.isExecution = true → t.schedule = s.schedule := by
    obtain ⟨events, happens, none_executed⟩ := quietly
    refine ⟨events, happens, .quiet none_executed, fun e mem executes => ?_⟩
    simp [none_executed e mem] at executes
  have executing (runs : Nat) :
      ∃ events, Happens b events s (s.execute b runs).2 ∧ s.schedule.Gated events ∧
        ∀ e ∈ events, e.isExecution = true → (s.execute b runs).2.schedule = s.schedule := by
    obtain ⟨events, happens, gated⟩ := gated_execute b runs s
    exact ⟨events, happens, gated, fun _ _ _ => schedule_execute b runs s⟩
  cases call with
  | apply a => exact quiet (quietly_apply b a s)
  | add actions => exact quiet (quietly_add b actions s)
  | isLegal => exact quiet (quietly_isLegal b s)
  | execute runs => exact executing runs
  | run => exact executing _

theorem steps_concat (b : Backend σ τ) (s : Session σ τ) (calls : List Call) (call : Call) :
    s.steps b (calls ++ [call]) = (s.steps b calls).step b call := by
  rw [steps, List.foldl_append]
  rfl

end Session
end LoopNest
