import LoopNest.Schedule.Session
import LoopNest.Proofs.Schedule.Growth

/-! What a session asks its backend. Whatever happens, what has been asked before stays, and only
the programs of schedules that the session's schedule can grow into are asked about. -/
namespace LoopNest

/-- A question about a program, with the answer. -/
structure Check where
  program : String
  legality : String
  answer : Except Backend.Error Verdict

def Event.check? {τ : Type} : Event τ → Option Check
  | checked program legality answer => some ⟨program, legality, answer⟩
  | logged _ _ | executed _ _ _ => none

namespace Session

variable {σ τ : Type} {b : Backend σ τ} {s t : Session σ τ}

/-- The questions about programs that have been asked, in order. -/
def checks (s : Session σ τ) : List Check := s.trace.filterMap Event.check?

@[simp] theorem schedule_log (s : Session σ τ) (level : LogLevel) (text : String) :
    (s.log level text).schedule = s.schedule := rfl

@[simp] theorem backend_log (s : Session σ τ) (level : LogLevel) (text : String) :
    (s.log level text).backend = s.backend := rfl

@[simp] theorem checks_log (s : Session σ τ) (level : LogLevel) (text : String) :
    (s.log level text).checks = s.checks := by
  simp [checks, log, note, Event.check?]

/-- Asking keeps the schedule, hands the backend's state on and adds one question. -/
theorem of_ask {program legality : String} {verdict : Except Schedule.Error Verdict}
    (asked : s.ask b program legality = (verdict, t)) :
    ∃ answer, b.check program legality s.backend = (answer, t.backend) ∧
      verdict = answer.mapError .backend ∧ t.schedule = s.schedule ∧
      t.checks = s.checks ++ [⟨program, legality, answer⟩] := by
  cases asked
  refine ⟨_, rfl, rfl, rfl, ?_⟩
  simp [checks, note, Event.check?]

theorem schedule_of_ask {program legality : String} {verdict : Except Schedule.Error Verdict}
    (asked : s.ask b program legality = (verdict, t)) : t.schedule = s.schedule := by
  obtain ⟨-, -, -, same, -⟩ := of_ask asked
  exact same

theorem of_askEach {draft : Schedule} {verdict : Except Schedule.Error Verdict}
    (asked : s.askEach b draft = (verdict, t)) :
    (draft.settings.checkEach = true ∧ s.ask b draft.program draft.legality = (verdict, t)) ∨
      (draft.settings.checkEach = false ∧ verdict = .ok .legal ∧ t = s) := by
  simp only [askEach] at asked
  split at asked
  · next wanted => exact .inl ⟨wanted, asked⟩
  · next unwanted =>
    cases asked
    exact .inr ⟨by simpa using unwanted, rfl, rfl⟩

theorem check_of_askEach {draft : Schedule} {verdict : Except Schedule.Error Verdict}
    (asked : s.askEach b draft = (verdict, t)) (bad : verdict ≠ .ok .legal) :
    draft.settings.checkEach = true ∧
      ∃ answer, (b.check draft.program draft.legality s.backend).1 = answer ∧
        verdict = answer.mapError .backend ∧
        t.checks = s.checks ++ [⟨draft.program, draft.legality, answer⟩] := by
  rcases of_askEach asked with ⟨wanted, asked⟩ | ⟨-, rfl, -⟩
  · obtain ⟨answer, said, same, -, checks⟩ := of_ask asked
    exact ⟨wanted, answer, by rw [said], same, checks⟩
  · exact absurd rfl bad

theorem askEach_of_check {draft : Schedule} {answer : Except Backend.Error Verdict}
    (wanted : draft.settings.checkEach = true)
    (said : (b.check draft.program draft.legality s.backend).1 = answer) :
    ∃ t, s.askEach b draft = (answer.mapError .backend, t) := by
  refine ⟨(s.askEach b draft).2, Prod.ext ?_ rfl⟩
  rw [askEach, if_pos wanted, ← said]
  rfl

theorem schedule_of_askEach {draft : Schedule} {verdict : Except Schedule.Error Verdict}
    (asked : s.askEach b draft = (verdict, t)) : t.schedule = s.schedule := by
  rcases of_askEach asked with ⟨-, asked⟩ | ⟨-, -, rfl⟩
  · exact schedule_of_ask asked
  · rfl

theorem schedule_draftAll (b : Backend σ τ) (actions : List Action) (draft : Schedule)
    (s : Session σ τ) : (draftAll b actions draft s).2.schedule = s.schedule := by
  fun_induction draftAll b actions draft s with
  | case1 => rfl
  | case2 => rfl
  | case3 _ _ _ _ _ _ _ _ _ asked => exact schedule_of_askEach asked
  | case4 _ _ _ _ _ _ _ _ _ asked => exact schedule_of_askEach asked
  | case5 _ _ _ _ _ _ _ _ asked ih =>
    rw [ih, schedule_log]
    exact schedule_of_askEach asked

end Session
end LoopNest
