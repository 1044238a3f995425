import LoopNest.Proofs.Schedule.Checks

/-! Calls on a session. Whatever is called, and whatever the backend answers, the schedule only
grows by actions that are offered, and only programs of schedules that it can grow into are asked
about. -/
namespace LoopNest

/-- What can be called on a session. -/
inductive Call where
  | apply (a : Action)
  | add (actions : List Action)
  | isLegal
  | execute (runs : Nat)
  | run

namespace Session

variable {σ τ : Type} {b : Backend σ τ} {s t : Session σ τ} {start : Schedule}

def step (b : Backend σ τ) (s : Session σ τ) : Call → Session σ τ
  | .apply a => (s.apply b a).2
  | .add actions => (s.add b actions).2
  | .isLegal => (s.isLegal b).2
  | .execute runs => (s.execute b runs).2
  | .run => (s.run b).2

def steps (b : Backend σ τ) (s : Session σ τ) (calls : List Call) : Session σ τ :=
  calls.foldl (step b) s

/-- What happens in a session stays among the schedules that one can grow into. -/
structure Within (start : Schedule) (s : Session σ τ) : Prop where
  schedule : start.Grows s.schedule
  checks : ∀ c ∈ s.checks, ∃ d, start.Grows d ∧ c.program = d.program ∧ c.legality = d.legality

theorem Within.log (within : Within start s) (level : LogLevel) (text : String) :
    Within start (s.log level text) :=
  ⟨within.schedule, by simpa using within.checks⟩

theorem Within.ask (within : Within start s) {d : Schedule} (grows : start.Grows d)
    {verdict : Except Schedule.Error Verdict}
    (asked : s.ask b d.program d.legality = (verdict, t)) : Within start t := by
  obtain ⟨answer, -, -, schedule, checks⟩ := of_ask asked
  refine ⟨schedule ▸ within.schedule, fun c mem => ?_⟩
  rw [checks, List.mem_append, List.mem_singleton] at mem
  rcases mem with before | rfl
  · exact within.checks c before
  · exact ⟨d, grows, rfl, rfl⟩

theorem Within.askEach (within : Within start s) {d : Schedule} (grows : start.Grows d)
    {verdict : Except Schedule.Error Verdict} (asked : s.askEach b d = (verdict, t)) :
    Within start t := by
  rcases of_askEach asked with ⟨-, asked⟩ | ⟨-, -, rfl⟩
  · exact within.ask grows asked
  · exact within

theorem Within.apply (within : Within start s) (b : Backend σ τ) (a : Action) :
    Within start (s.apply b a).2 := by
  fun_cases Session.apply b a s with
  | case1 => exact within
  | case2 bound longer offered e t asked => exact within.ask (within.schedule.offer offered) asked
  | case3 bound longer offered t asked =>
    have grows := within.schedule.offer offered
    exact ⟨grows, ((within.ask grows asked).log _ _).checks⟩
  | case4 bound longer offered reason t asked =>
    exact (within.ask (within.schedule.offer offered) asked).log _ _

theorem Within.draftAll (b : Backend σ τ) (actions : List Action) {draft : Schedule}
    (within : Within start s) (grows : start.Grows draft) :
    Within start (draftAll b actions draft s).2 ∧
      ∀ longer, (Session.draftAll b actions draft s).1 = .ok longer → start.Grows longer := by
  fun_induction Session.draftAll b actions draft s with
  | case1 =>
    refine ⟨within, fun longer same => ?_⟩
    cases same
    exact grows
  | case2 => exact ⟨within, by simp⟩
  | case3 a rest draft s bound longer offered e t asked =>
    exact ⟨within.askEach (grows.offer offered) asked, by simp⟩
  | case4 a rest draft s bound longer offered reason t asked =>
    exact ⟨within.askEach (grows.offer offered) asked, by simp⟩
  | case5 a rest draft s bound longer offered t asked ih =>
    exact ih ((within.askEach (grows.offer offered) asked).log _ _) (grows.offer offered)

theorem Within.add (within : Within start s) (b : Backend σ τ) (actions : List Action) :
    Within start (s.add b actions).2 := by
  obtain ⟨drafted, grown⟩ := within.draftAll b actions within.schedule
  simp only [Session.add]
  split
  · next same => rwa [same] at drafted
  · next longer t same =>
    rw [same] at drafted grown
    exact ⟨grown longer rfl, (drafted.log _ _).checks⟩

theorem Within.isLegal (within : Within start s) (b : Backend σ τ) :
    Within start (s.isLegal b).2 := by
  fun_cases Session.isLegal b s with
  | case1 e t asked => exact within.ask within.schedule asked
  | case2 verdict t asked => exact within.ask within.schedule asked

theorem Within.executeUnchecked (within : Within start s) (b : Backend σ τ) (runs : Nat) :
    Within start (s.executeUnchecked b runs).2 := by
  refine ⟨within.schedule, ?_⟩
  have same : (s.executeUnchecked b runs).2.checks = s.checks := by
    simp [Session.executeUnchecked, Session.checks, Session.log, note, Event.check?]
  rw [same]
  exact within.checks

theorem Within.execute (within : Within start s) (b : Backend σ τ) (runs : Nat) :
    Within start (s.execute b runs).2 := by
  fun_cases Session.execute b runs s with
  | case1 _ e t asked => exact within.ask within.schedule asked
  | case2 _ reason t asked => exact within.ask within.schedule asked
  | case3 _ t asked => exact (within.ask within.schedule asked).executeUnchecked b runs
  | case4 => exact within.executeUnchecked b runs

theorem Within.step (within : Within start s) (b : Backend σ τ) (call : Call) :
    Within start (s.step b call) := by
  cases call with
  | apply a => exact within.apply b a
  | add actions => exact within.add b actions
  | isLegal => exact within.isLegal b
  | execute runs => exact within.execute b runs
  | run => exact within.execute b _

theorem Within.steps (within : Within start s) (b : Backend σ τ) (calls : List Call) :
    Within start (s.steps b calls) := by
  induction calls generalizing s with
  | nil => exact within
  | cons call calls ih => exact ih (within.step b call)

end Session

/-- Whatever is called on a session that starts with a reachable nest, and whatever the backend
answers, the schedule stays coherent: its programs are those of its actions in order, its nest is
the one that the last action leaves, and its actions bound again from the first nest on come out as
they are. Each program that was asked about was also the program to check. -/
theorem Reachable.coherent_steps {σ τ : Type} {n : Nest} (reached : Reachable n)
    (settings : Settings) (b : Backend σ τ) (state : σ) (calls : List Call) :
    let s := Session.steps b { schedule := { nest := n, settings }, backend := state } calls
    s.schedule.Coherent n ∧ ∀ c ∈ s.checks, c.program = c.legality := by
  intro s
  have start := Schedule.coherent_start reached settings
  have begun : Session.Within { nest := n, settings }
      ({ schedule := { nest := n, settings }, backend := state } : Session σ τ) :=
    ⟨.refl, fun c mem => nomatch mem⟩
  have within := begun.steps b calls
  refine ⟨within.schedule.coherent start, fun c mem => ?_⟩
  obtain ⟨d, grows, program, legality⟩ := within.checks c mem
  rw [program, legality, (grows.coherent start).legality]

def onceLegal : Backend Nat Unit where
  check _ _ asked := (.ok (if asked = 0 then .legal else .illegal "once only"), asked + 1)
  execute _ runs asked := (.ok (List.replicate runs ()), asked)

def reverseRows : Action where
  change := .reversal ⟨"rows", 0⟩

def blurCalls : List Call := [.apply tileRows, .apply reverseRows, .execute 2]

theorem coherent_blurCalls :
    let s := Session.steps onceLegal { schedule := { nest := blurNest }, backend := 0 } blurCalls
    s.schedule.actions = [{ tileRows with binding := some tiledRows }] ∧ s.checks.length = 3 ∧
      s.schedule.Coherent blurNest ∧ ∀ c ∈ s.checks, c.program = c.legality := by
  refine ⟨?_, ?_, Reachable.coherent_steps reachable_blur {} onceLegal 0 blurCalls⟩
  · cbv
  · cbv

end LoopNest
