import LoopNest.Proofs.Schedule.Checks

/-! Batches. A batch offers its actions one after the other and, where the settings want it, asks
about each draft on the way. What can be offered and what the backend says are two matters: a batch
comes through if all of its actions can be offered and the backend finds the drafts legal. -/
namespace LoopNest

/-- The backend finds the programs of schedules legal, one after the other, as it goes from one
state to another. -/
inductive Backend.Grants {σ τ : Type} (b : Backend σ τ) : σ → List Schedule → σ → Prop where
  | nil {state : σ} : Grants b state [] state
  | cons {state next last : σ} {d : Schedule} {ds : List Schedule}
    (answer : b.check d.program d.legality state = (.ok .legal, next))
    (others : Grants b next ds last) : Grants b state (d :: ds) last

theorem Backend.grants_append_iff {σ τ : Type} {b : Backend σ τ} {state last : σ}
    {ds es : List Schedule} :
    b.Grants state (ds ++ es) last ↔ ∃ mid, b.Grants state ds mid ∧ b.Grants mid es last := by
  constructor
  · intro grants
    induction ds generalizing state with
    | nil => exact ⟨state, .nil, grants⟩
    | cons d ds ih =>
      cases grants with
      | cons answer others =>
        obtain ⟨mid, front, back⟩ := ih others
        exact ⟨mid, .cons answer front, back⟩
  · rintro ⟨mid, front, back⟩
    induction front with
    | nil => exact back
    | cons answer _ ih => exact .cons answer (ih back)

def Schedule.granted (d : Schedule) : Check := ⟨d.program, d.legality, .ok .legal⟩

def Settings.asks (c : Settings) (ds : List Schedule) : List Schedule :=
  if c.checkEach then ds else []

@[simp] theorem Settings.asks_nil (c : Settings) : c.asks [] = [] := by simp [asks]

theorem Settings.asks_of_wanted {c : Settings} (wanted : c.checkEach = true)
    (ds : List Schedule) : c.asks ds = ds := if_pos wanted

theorem Settings.asks_of_unwanted {c : Settings} (unwanted : c.checkEach = false)
    (ds : List Schedule) : c.asks ds = [] := by simp [asks, unwanted]

theorem Settings.asks_cons (c : Settings) (d : Schedule) (ds : List Schedule) :
    c.asks (d :: ds) = c.asks [d] ++ c.asks ds := by
  unfold asks
  split <;> rfl

theorem Settings.asks_append (c : Settings) (ds es : List Schedule) :
    c.asks (ds ++ es) = c.asks ds ++ c.asks es := by
  unfold asks
  split <;> rfl

namespace Session

variable {σ τ : Type} {b : Backend σ τ} {s t u : Session σ τ} {draft longer : Schedule}
  {actions : List Action} {more : List (Action × Schedule)}

/-- From one session to another just the programs of these schedules are asked about, in order, and
all of them are found legal. -/
structure Passes (b : Backend σ τ) (ds : List Schedule) (s t : Session σ τ) : Prop where
  grants : b.Grants s.backend ds t.backend
  checks : t.checks = s.checks ++ ds.map Schedule.granted

theorem Passes.append {ds es : List Schedule} (front : Passes b ds s t) (back : Passes b es t u) :
    Passes b (ds ++ es) s u where
  grants := Backend.grants_append_iff.mpr ⟨t.backend, front.grants, back.grants⟩
  checks := by rw [back.checks, front.checks, List.map_append, List.append_assoc]

theorem Passes.log {ds : List Schedule} (passes : Passes b ds s t) (level : LogLevel)
    (text : String) : Passes b ds s (t.log level text) :=
  ⟨passes.grants, by rw [checks_log, passes.checks]⟩

theorem passes_of_ask {d : Schedule} (asked : s.ask b d.program d.legality = (.ok .legal, t)) :
    Passes b [d] s t := by
  obtain ⟨answer, said, verdict, -, checks⟩ := of_ask asked
  cases answer with
  | error e => cases verdict
  | ok given =>
    cases verdict
    exact ⟨.cons said .nil, checks⟩

theorem passes_of_askEach (asked : s.askEach b draft = (.ok .legal, t)) :
    Passes b (draft.settings.asks [draft]) s t := by
  rcases of_askEach asked with ⟨wanted, asked⟩ | ⟨unwanted, -, rfl⟩
  · rw [Settings.asks_of_wanted wanted]
    exact passes_of_ask asked
  · rw [Settings.asks_of_unwanted unwanted]
    exact ⟨.nil, by simp⟩

theorem askEach_of_grants {next : σ}
    (grants : b.Grants s.backend (draft.settings.asks [draft]) next) :
    ∃ t, s.askEach b draft = (.ok .legal, t) ∧ t.backend = next := by
  cases wanted : draft.settings.checkEach with
  | true =>
    rw [Settings.asks_of_wanted wanted] at grants
    obtain _ | ⟨answer, _ | _⟩ := grants
    exact ⟨_, by rw [askEach, if_pos wanted, ask, answer]; rfl, rfl⟩
  | false =>
    rw [Settings.asks_of_unwanted wanted] at grants
    cases grants
    exact ⟨s, by simp [askEach, wanted], rfl⟩

/-- A batch that comes through has offered all its actions, and passed with what it asked about. -/
theorem passes_draftAll (drafted : draftAll b actions draft s = (.ok longer, t)) :
    ∃ more, draft.offerAll actions = .ok more ∧ longer = draft.after more ∧
      Passes b (draft.settings.asks (more.map Prod.snd)) s t := by
  fun_induction draftAll b actions draft s with
  | case1 draft s =>
    cases drafted
    refine ⟨[], rfl, rfl, ?_⟩
    rw [List.map_nil, Settings.asks_nil]
    exact ⟨.nil, by simp⟩
  | case2 | case3 | case4 => cases drafted
  | case5 a rest draft s bound next offered u asked ih =>
    obtain ⟨more, others, rfl, passes⟩ := ih drafted
    refine ⟨(bound, next) :: more,
      Schedule.offerAll_cons_eq_ok_iff.mpr ⟨bound, next, more, offered, others, rfl⟩,
      (draft.after_cons (bound, next) more).symm, ?_⟩
    rw [List.map_cons, Settings.asks_cons, ← Schedule.settings_of_offer offered]
    exact ((passes_of_askEach asked).log _ _).append passes

theorem draftAll_of_grants {last : σ} (offered : draft.offerAll actions = .ok more)
    (grants : b.Grants s.backend (draft.settings.asks (more.map Prod.snd)) last) :
    ∃ t, draftAll b actions draft s = (.ok (draft.after more), t) ∧ t.backend = last := by
  induction actions generalizing draft more s with
  | nil =>
    cases offered
    rw [List.map_nil, Settings.asks_nil] at grants
    cases grants
    exact ⟨s, rfl, rfl⟩
  | cons a rest ih =>
    obtain ⟨bound, next, behind, first, others, rfl⟩ :=
      Schedule.offerAll_cons_eq_ok_iff.mp offered
    rw [List.map_cons, Settings.asks_cons, ← Schedule.settings_of_offer first] at grants
    obtain ⟨mid, front, back⟩ := Backend.grants_append_iff.mp grants
    obtain ⟨t, asked, rfl⟩ := askEach_of_grants front
    obtain ⟨u, drafted, ended⟩ := ih (s := t.log .debug ("queued " ++ bound.text)) others back
    exact ⟨u, by simp only [draftAll, first, asked, drafted, Schedule.after_cons], ended⟩

theorem add_of_draftAll (drafted : draftAll b actions s.schedule s = (.ok longer, t)) :
    s.add b actions =
      (.ok (), { t.log .info ("added " ++ toString actions.length ++ " optimizations") with
        schedule := longer }) := by
  rw [add, drafted]

theorem passes_add (added : (s.add b actions).1 = .ok ()) :
    ∃ more, s.schedule.offerAll actions = .ok more ∧
      (s.add b actions).2.schedule = s.schedule.after more ∧
      Passes b (s.schedule.settings.asks (more.map Prod.snd)) s (s.add b actions).2 := by
  rcases drafted : draftAll b actions s.schedule s with ⟨e | longer, t⟩
  · simp [add, drafted] at added
  · obtain ⟨more, offered, rfl, passes⟩ := passes_draftAll drafted
    rw [add_of_draftAll drafted]
    exact ⟨more, offered, rfl, passes.grants, (passes.log _ _).checks⟩

theorem add_of_grants {last : σ} (offered : s.schedule.offerAll actions = .ok more)
    (grants : b.Grants s.backend (s.schedule.settings.asks (more.map Prod.snd)) last) :
    (s.add b actions).1 = .ok () ∧ (s.add b actions).2.schedule = s.schedule.after more ∧
      (s.add b actions).2.backend = last ∧
      (s.add b actions).2.checks =
        s.checks ++ (s.schedule.settings.asks (more.map Prod.snd)).map Schedule.granted := by
  obtain ⟨t, drafted, ended⟩ := draftAll_of_grants offered grants
  obtain ⟨more', offered', -, passes⟩ := passes_draftAll drafted
  cases offered.symm.trans offered'
  rw [add_of_draftAll drafted]
  exact ⟨rfl, rfl, ended, (passes.log _ _).checks⟩

end Session
end LoopNest
