import Mathlib.Data.List.Infix
import LoopNest.Proofs.Schedule.Atomic

/-! Batches and single offers. Offering actions one at a time asks about every longer schedule, a
batch asks only if the settings want it. Otherwise the two do the same: what the one accepts the
other adds, with the same schedule at the end, and a batch may be cut in two. -/
namespace LoopNest

namespace Session

variable {σ σ' τ : Type} {b : Backend σ τ} {b' : Backend σ' τ} {s t u : Session σ τ}
  {s' : Session σ' τ} {a bound : Action} {longer draft : Schedule} {actions : List Action}
  {more : List (Action × Schedule)}

def applyAll (b : Backend σ τ) : List Action → Session σ τ →
    List (Except Schedule.Error Outcome) × Session σ τ
  | [], s => ([], s)
  | a :: rest, s =>
    let offered := s.apply b a
    let others := applyAll b rest offered.2
    (offered.1 :: others.1, others.2)

/-- Single offers of the actions are all accepted. -/
def AcceptsAll (b : Backend σ τ) (actions : List Action) (s : Session σ τ) : Prop :=
  (s.applyAll b actions).1 = actions.map fun _ => .ok .accepted

def checksSince (t s : Session σ τ) : List Check := t.checks.drop s.checks.length

/-- Every question about a program since an earlier session was answered that it is legal. -/
def AllLegal (t s : Session σ τ) : Prop := ∀ c ∈ t.checksSince s, c.answer = .ok .legal

/-- Of two runs, each from one session to a later one, the schedules at the end are the same, and
the questions asked on the way are too if batches ask about each action. -/
structure Agree (s t : Session σ τ) (s' t' : Session σ' τ) : Prop where
  schedule : t'.schedule = t.schedule
  checks : s.schedule.settings.checkEach = true → t'.checksSince s' = t.checksSince s

theorem Passes.checksSince {ds : List Schedule} (passes : Passes b ds s t) :
    t.checksSince s = ds.map Schedule.granted := by
  rw [Session.checksSince, passes.checks, List.drop_left]

theorem AllLegal.of_later (legal : AllLegal u s) (grown : t.checks <+: u.checks) : AllLegal t s :=
  fun c mem => legal c ((grown.drop _).subset mem)

theorem AllLegal.of_earlier (legal : AllLegal u s) (grown : s.checks <+: t.checks) :
    AllLegal u t :=
  fun c mem => legal c (List.drop_subset_drop_left _ grown.length_le mem)

theorem prefix_log (s : Session σ τ) (level : LogLevel) (text : String) :
    s.checks <+: (s.log level text).checks := by
  simp

theorem prefix_ask {program legality : String} {verdict : Except Schedule.Error Verdict}
    (asked : s.ask b program legality = (verdict, t)) : s.checks <+: t.checks := by
  obtain ⟨answer, -, -, -, checks⟩ := of_ask asked
  rw [checks]
  exact List.prefix_append _ _

theorem prefix_askEach {verdict : Except Schedule.Error Verdict}
    (asked : s.askEach b draft = (verdict, t)) : s.checks <+: t.checks := by
  rcases of_askEach asked with ⟨-, asked⟩ | ⟨-, -, rfl⟩
  · exact prefix_ask asked
  · exact List.prefix_rfl

theorem prefix_apply (b : Backend σ τ) (a : Action) (s : Session σ τ) :
    s.checks <+: (s.apply b a).2.checks := by
  fun_cases Session.apply b a s with
  | case1 => exact List.prefix_rfl
  | case2 _ _ _ _ _ asked => exact prefix_ask asked
  | case3 bound _ _ t asked =>
    exact (prefix_ask asked).trans (prefix_log t .info ("accepted " ++ bound.text))
  | case4 _ _ _ _ t asked => exact (prefix_ask asked).trans (prefix_log t _ _)

theorem prefix_applyAll (b : Backend σ τ) (actions : List Action) (s : Session σ τ) :
    s.checks <+: (s.applyAll b actions).2.checks := by
  induction actions generalizing s with
  | nil => exact List.prefix_rfl
  | cons a rest ih => exact (prefix_apply b a s).trans (ih _)

theorem legal_of_ask {program legality : String} {verdict : Except Schedule.Error Verdict}
    (asked : s.ask b program legality = (verdict, t)) (legal : AllLegal t s) :
    verdict = .ok .legal := by
  obtain ⟨answer, -, rfl, -, checks⟩ := of_ask asked
  have said : answer = .ok .legal :=
    legal ⟨program, legality, answer⟩ (by rw [checksSince, checks, List.drop_left]; simp)
  rw [said]
  rfl

theorem legal_of_askEach {verdict : Except Schedule.Error Verdict}
    (asked : s.askEach b draft = (verdict, t)) (legal : AllLegal t s) : verdict = .ok .legal := by
  rcases of_askEach asked with ⟨-, asked⟩ | ⟨-, rfl, -⟩
  · exact legal_of_ask asked legal
  · rfl

theorem passes_apply (b : Backend σ τ) (a : Action) (s : Session σ τ) :
    (s.apply b a).1 = .ok .accepted →
      ∃ bound longer, s.schedule.offer a = .ok (bound, longer) ∧
        (s.apply b a).2.schedule = longer ∧ Passes b [longer] s (s.apply b a).2 := by
  fun_cases Session.apply b a s with
  | case1 | case2 | case4 => rintro ⟨⟩
  | case3 bound longer offered t asked =>
    intro _
    have passes := (passes_of_ask asked).log .info ("accepted " ++ bound.text)
    exact ⟨bound, longer, offered, rfl, passes.grants, passes.checks⟩

theorem passes_applyAll (accepted : s.AcceptsAll b actions) :
    ∃ more, s.schedule.offerAll actions = .ok more ∧
      (s.applyAll b actions).2.schedule = s.schedule.after more ∧
      Passes b (more.map Prod.snd) s (s.applyAll b actions).2 := by
  induction actions generalizing s with
  | nil => exact ⟨[], rfl, rfl, .nil, by simp [applyAll]⟩
  | cons a rest ih =>
    obtain ⟨first, others⟩ := List.cons_eq_cons.mp accepted
    obtain ⟨bound, longer, offered, next, passes⟩ := passes_apply b a s first
    obtain ⟨more, offers, last, behind⟩ := ih others
    rw [next] at offers last
    exact ⟨(bound, longer) :: more,
      Schedule.offerAll_cons_eq_ok_iff.mpr ⟨bound, longer, more, offered, offers, rfl⟩,
      by rw [Schedule.after_cons]; exact last, passes.append behind⟩

theorem apply_of_legal (b : Backend σ τ) (a : Action) (s : Session σ τ) :
    s.schedule.offer a = .ok (bound, longer) → AllLegal (s.apply b a).2 s →
      (s.apply b a).1 = .ok .accepted ∧ (s.apply b a).2.schedule = longer := by
  fun_cases Session.apply b a s with
  | case1 e fails =>
    intro offered
    cases fails.symm.trans offered
  | case2 _ _ _ e t asked =>
    intro _ legal
    cases legal_of_ask asked legal
  | case3 bound longer offered t asked =>
    intro offered' _
    cases offered.symm.trans offered'
    exact ⟨rfl, rfl⟩
  | case4 _ _ _ reason t asked =>
    intro _ legal
    cases legal_of_ask asked (legal.of_later (prefix_log t _ _))

theorem applyAll_of_legal (offered : s.schedule.offerAll actions = .ok more)
    (legal : AllLegal (s.applyAll b actions).2 s) : s.AcceptsAll b actions := by
  induction actions generalizing s more with
  | nil => rfl
  | cons a rest ih =>
    obtain ⟨bound, longer, behind, first, others, rfl⟩ :=
      Schedule.offerAll_cons_eq_ok_iff.mp offered
    have early : AllLegal (s.apply b a).2 s := legal.of_later (prefix_applyAll b rest _)
    obtain ⟨accepted, next⟩ := apply_of_legal b a s first early
    have late := ih (next ▸ others) (legal.of_earlier (prefix_apply b a s))
    exact List.cons_eq_cons.mpr ⟨accepted, late⟩

theorem draftAll_of_legal (offered : draft.offerAll actions = .ok more)
    (legal : AllLegal (draftAll b actions draft s).2 s) :
    (draftAll b actions draft s).1 = .ok (draft.after more) := by
  fun_induction draftAll b actions draft s generalizing more with
  | case1 =>
    cases offered
    rfl
  | case2 a rest draft s e fails =>
    obtain ⟨bound, longer, -, first, -⟩ := Schedule.offerAll_cons_eq_ok_iff.mp offered
    cases fails.symm.trans first
  | case3 a rest draft s bound next first e t asked =>
    cases legal_of_askEach asked legal
  | case4 a rest draft s bound next first reason t asked =>
    cases legal_of_askEach asked legal
  | case5 a rest draft s bound next first t asked ih =>
    obtain ⟨bound', next', behind, first', others, rfl⟩ :=
      Schedule.offerAll_cons_eq_ok_iff.mp offered
    cases first.symm.trans first'
    rw [Schedule.after_cons]
    exact ih others (legal.of_earlier ((prefix_askEach asked).trans (prefix_log t _ _)))

theorem add_of_legal (offered : s.schedule.offerAll actions = .ok more)
    (legal : AllLegal (s.add b actions).2 s) : (s.add b actions).1 = .ok () := by
  rcases drafted : draftAll b actions s.schedule s with ⟨e | longer, t⟩
  · have early : AllLegal t s := by simpa only [add, drafted] using legal
    have through := draftAll_of_legal (b := b) offered (by rw [drafted]; exact early)
    rw [drafted] at through
    cases through
  · rw [add_of_draftAll drafted]

theorem apply_of_check {next : σ} (offered : s.schedule.offer a = .ok (bound, longer))
    (answer : b.check longer.program longer.legality s.backend = (.ok .legal, next)) :
    (s.apply b a).1 = .ok .accepted ∧ (s.apply b a).2.schedule = longer ∧
      (s.apply b a).2.backend = next := by
  simp [apply, offered, ask, answer, Except.mapError, note]

theorem applyAll_of_grants {last : σ} (offered : s.schedule.offerAll actions = .ok more)
    (grants : b.Grants s.backend (more.map Prod.snd) last) : s.AcceptsAll b actions := by
  induction actions generalizing s more with
  | nil => rfl
  | cons a rest ih =>
    obtain ⟨bound, longer, behind, first, others, rfl⟩ :=
      Schedule.offerAll_cons_eq_ok_iff.mp offered
    obtain _ | ⟨answer, behindGrants⟩ := grants
    obtain ⟨accepted, rfl, rfl⟩ := apply_of_check first answer
    exact List.cons_eq_cons.mpr ⟨accepted, ih others behindGrants⟩

theorem agree_of_add (same : s'.schedule = s.schedule) (added : (s.add b actions).1 = .ok ())
    (accepted : s'.AcceptsAll b' actions) :
    Agree s (s.add b actions).2 s' (s'.applyAll b' actions).2 := by
  obtain ⟨more, offered, longer, passes⟩ := passes_add added
  obtain ⟨more', offered', longer', passes'⟩ := passes_applyAll accepted
  rw [same] at offered' longer'
  cases offered.symm.trans offered'
  refine ⟨longer'.trans longer.symm, fun wanted => ?_⟩
  rw [passes.checksSince, passes'.checksSince, Settings.asks_of_wanted wanted]

/-- With the same backend, a batch succeeds if single offers are all accepted. -/
theorem add_of_accepted (accepted : s.AcceptsAll b actions) :
    (s.add b actions).1 = .ok () ∧
      (s.schedule.settings.checkEach = true →
        (s.add b actions).2.backend = (s.applyAll b actions).2.backend) := by
  obtain ⟨more, offered, -, passes⟩ := passes_applyAll accepted
  cases wanted : s.schedule.settings.checkEach with
  | true =>
    have grants := passes.grants
    rw [← Settings.asks_of_wanted wanted (more.map Prod.snd)] at grants
    obtain ⟨added, -, ended, -⟩ := add_of_grants offered grants
    exact ⟨added, fun _ => ended⟩
  | false =>
    have grants : b.Grants s.backend (s.schedule.settings.asks (more.map Prod.snd)) s.backend := by
      rw [Settings.asks_of_unwanted wanted]
      exact .nil
    exact ⟨(add_of_grants offered grants).1, fun asked => nomatch asked⟩

/-- A batch that succeeds also does so in two parts, and ends the same. -/
theorem add_parts (b : Backend σ τ) (s : Session σ τ) {first second : List Action}
    (added : (s.add b (first ++ second)).1 = .ok ()) :
    let mid := (s.add b first).2
    (s.add b first).1 = .ok () ∧ (mid.add b second).1 = .ok () ∧
      (s.add b (first ++ second)).2.schedule = (mid.add b second).2.schedule ∧
      (s.add b (first ++ second)).2.backend = (mid.add b second).2.backend ∧
      (s.add b (first ++ second)).2.checks = (mid.add b second).2.checks := by
  intro mid
  obtain ⟨more, offered, schedule, grants, checks⟩ := passes_add added
  obtain ⟨front, back, begun, behind, rfl⟩ := Schedule.offerAll_append_eq_ok_iff.mp offered
  obtain ⟨-, -, settings⟩ := Schedule.actions_of_offerAll begun
  rw [List.map_append, Settings.asks_append] at grants checks
  obtain ⟨state, early, late⟩ := Backend.grants_append_iff.mp grants
  obtain ⟨addedFirst, scheduleFirst, rfl, checksFirst⟩ := add_of_grants begun early
  rw [← scheduleFirst] at behind settings
  rw [← settings] at late
  obtain ⟨addedSecond, scheduleSecond, backend, checksSecond⟩ := add_of_grants behind late
  refine ⟨addedFirst, addedSecond, ?_, backend.symm, ?_⟩
  · rw [schedule, scheduleSecond, scheduleFirst, Schedule.after_append]
  · rw [checks, checksSecond, checksFirst, settings, List.map_append, List.append_assoc]

/-- Two batches that succeed one after the other can be joined. -/
theorem add_join {first second : List Action} (addedFirst : (s.add b first).1 = .ok ())
    (addedSecond : ((s.add b first).2.add b second).1 = .ok ()) :
    (s.add b (first ++ second)).1 = .ok () := by
  obtain ⟨front, begun, schedule, early⟩ := passes_add addedFirst
  obtain ⟨back, behind, -, late⟩ := passes_add addedSecond
  obtain ⟨-, -, settings⟩ := Schedule.actions_of_offerAll begun
  rw [schedule] at behind late
  rw [settings] at late
  have offered : s.schedule.offerAll (first ++ second) = .ok (front ++ back) :=
    Schedule.offerAll_append_eq_ok_iff.mpr ⟨front, back, begun, behind, rfl⟩
  have grants : b.Grants s.backend
      (s.schedule.settings.asks ((front ++ back).map Prod.snd))
      ((s.add b first).2.add b second).2.backend := by
    rw [List.map_append, Settings.asks_append]
    exact Backend.grants_append_iff.mpr ⟨_, early.grants, late.grants⟩
  exact (add_of_grants offered grants).1

/-- Batches and single offers agree. If a batch succeeds, single offers of its actions, on the same
schedule and found legal each time, are all accepted; so they are with the same backend, if the
batch asks about each action. If single offers are all accepted, the batch succeeds on the same
schedule where what it asks about is found legal; so it does with the same backend. The schedules at
the end are the same, and if the batch asks about each action, so are the questions. A batch
therefore succeeds just where a first part of it does and then the rest, and ends the same. -/
theorem add_agrees (b : Backend σ τ) (s : Session σ τ) :
    (∀ actions, (s.add b actions).1 = .ok () →
      (∀ (σ' : Type) (b' : Backend σ' τ) (s' : Session σ' τ), s'.schedule = s.schedule →
        AllLegal (s'.applyAll b' actions).2 s' →
          s'.AcceptsAll b' actions ∧ Agree s (s.add b actions).2 s' (s'.applyAll b' actions).2) ∧
      (s.schedule.settings.checkEach = true → s.AcceptsAll b actions)) ∧
    (∀ actions, s.AcceptsAll b actions →
      (∀ (σ' : Type) (b' : Backend σ' τ) (s' : Session σ' τ), s'.schedule = s.schedule →
        AllLegal (s'.add b' actions).2 s' →
          (s'.add b' actions).1 = .ok () ∧
            Agree s' (s'.add b' actions).2 s (s.applyAll b actions).2) ∧
      (s.add b actions).1 = .ok () ∧ Agree s (s.add b actions).2 s (s.applyAll b actions).2 ∧
        (s.schedule.settings.checkEach = true →
          (s.add b actions).2.backend = (s.applyAll b actions).2.backend)) ∧
    ∀ first second,
      let mid := (s.add b first).2
      ((s.add b (first ++ second)).1 = .ok () ↔
        (s.add b first).1 = .ok () ∧ (mid.add b second).1 = .ok ()) ∧
      ((s.add b (first ++ second)).1 = .ok () →
        (s.add b (first ++ second)).2.schedule = (mid.add b second).2.schedule ∧
        (s.add b (first ++ second)).2.backend = (mid.add b second).2.backend ∧
        (s.add b (first ++ second)).2.checks = (mid.add b second).2.checks) := by
  refine ⟨fun actions added => ⟨?_, ?_⟩, fun actions accepted => ⟨?_, ?_⟩, ?_⟩
  · intro σ' b' s' same legal
    obtain ⟨more, offered, -, -⟩ := passes_add added
    rw [← same] at offered
    have accepted := applyAll_of_legal offered legal
    exact ⟨accepted, agree_of_add same added accepted⟩
  · intro wanted
    obtain ⟨more, offered, -, passes⟩ := passes_add added
    rw [Settings.asks_of_wanted wanted] at passes
    exact applyAll_of_grants offered passes.grants
  · intro σ' b' s' same legal
    obtain ⟨more, offered, -, -⟩ := passes_applyAll accepted
    rw [← same] at offered
    have added := add_of_legal offered legal
    exact ⟨added, agree_of_add same.symm added accepted⟩
  · obtain ⟨added, ended⟩ := add_of_accepted accepted
    exact ⟨added, agree_of_add rfl added accepted, ended⟩
  · intro first second mid
    refine ⟨⟨fun added => ?_, fun ⟨addedFirst, addedSecond⟩ => ?_⟩, fun added => ?_⟩
    · obtain ⟨addedFirst, addedSecond, -⟩ := add_parts b s added
      exact ⟨addedFirst, addedSecond⟩
    · exact add_join addedFirst addedSecond
    · obtain ⟨-, -, ends⟩ := add_parts b s added
      exact ends

end Session

def grantAll : Backend Unit Unit where
  check _ _ state := (.ok .legal, state)
  execute _ runs state := (.ok (List.replicate runs ()), state)

def grantedBlur : Session Unit Unit where
  schedule := eachBlur.schedule
  backend := ()

theorem add_agrees_grantedBlur :
    (grantedBlur.add grantAll [tileRows, reverseRows]).1 = .ok () ∧
      grantedBlur.AcceptsAll grantAll [tileRows, reverseRows] ∧
      Session.Agree grantedBlur (grantedBlur.add grantAll [tileRows, reverseRows]).2 grantedBlur
        (grantedBlur.applyAll grantAll [tileRows, reverseRows]).2 ∧
      (grantedBlur.add grantAll [tileRows]).1 = .ok () := by
  obtain ⟨single, batch, parts⟩ := Session.add_agrees grantAll grantedBlur
  have added : (grantedBlur.add grantAll [tileRows, reverseRows]).1 = .ok () := by
    cbv
  have allLegal {s : Session Unit Unit}
      (answers : (s.checksSince grantedBlur).map Check.answer = [.ok .legal, .ok .legal]) :
      s.AllLegal grantedBlur := fun c mem => by
    have among := List.mem_map_of_mem (f := Check.answer) mem
    rw [answers] at among
    simpa using among
  have legal : Session.AllLegal
      (grantedBlur.applyAll grantAll [tileRows, reverseRows]).2 grantedBlur :=
    allLegal (by cbv)
  have accepted := ((single _ added).1 Unit grantAll grantedBlur rfl legal).1
  have legal' : Session.AllLegal
      (grantedBlur.add grantAll [tileRows, reverseRows]).2 grantedBlur :=
    allLegal (by cbv)
  obtain ⟨-, agree⟩ := (batch _ accepted).1 Unit grantAll grantedBlur rfl legal'
  exact ⟨added, accepted, agree, ((parts [tileRows] [reverseRows]).1.mp added).1⟩

end LoopNest
