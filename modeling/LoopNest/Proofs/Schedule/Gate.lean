import LoopNest.Proofs.Schedule.Batch
import LoopNest.Proofs.Schedule.Record

/-! The legality gate. In every run of calls the programs executed are those of the schedule at the
time, and with the setting to ask first each of them has just been found legal. Where batches are
asked about action by action, or none is added, every schedule that the run came by has been found
legal: for each first part of its actions their programs were asked about, joined, and granted. -/
namespace LoopNest

/-- The programs of bound actions, joined in order, and their programs to check. -/
def Action.Joined (actions : List Action) (program legality : String) : Prop :=
  ∃ renderings : List Rendering, actions.map Action.rendering = renderings.map .ok ∧
    program = String.join (renderings.map Rendering.program) ∧
    legality = String.join (renderings.map Rendering.legality)

namespace Schedule

variable {s longer : Schedule} {a bound : Action} {checks checks' : List Check}

/-- A schedule's programs are those of its actions, and each first part of the actions has been
found legal. -/
structure Vouched (checks : List Check) (s : Schedule) : Prop where
  joined : Action.Joined s.actions s.program s.legality
  cleared : ∀ done, done ≠ [] → done <+: s.actions →
    ∃ c ∈ checks, c.answer = .ok .legal ∧ Action.Joined done c.program c.legality

theorem vouched_start (n : Nest) (settings : Settings) :
    Vouched [] { nest := n, settings } where
  joined := ⟨[], rfl, rfl, rfl⟩
  cleared _ some_done first := absurd (List.prefix_nil.mp first) some_done

theorem Vouched.mono (vouched : s.Vouched checks) (kept : checks ⊆ checks') :
    s.Vouched checks' where
  joined := vouched.joined
  cleared done some_done first := by
    obtain ⟨c, mem, legal, joined⟩ := vouched.cleared done some_done first
    exact ⟨c, kept mem, legal, joined⟩

theorem Vouched.offer (vouched : s.Vouched checks) (offered : s.offer a = .ok (bound, longer))
    (granted : longer.granted ∈ checks) : longer.Vouched checks := by
  obtain ⟨-, binding, found, rfl⟩ := offer_eq_ok_iff.mp offered
  obtain ⟨renderings, rendered, program, legality⟩ := vouched.joined
  have joined : Action.Joined (s.extend bound binding).actions (s.extend bound binding).program
      (s.extend bound binding).legality :=
    ⟨renderings ++ [binding.rendering], by simp [extend, rendered, Action.rendering, found],
      by simp [extend, program, String.join_append], by simp [extend, legality, String.join_append]⟩
  refine ⟨joined, fun done some_done first => ?_⟩
  rcases List.prefix_concat_iff.mp first with rfl | first
  · exact ⟨_, granted, rfl, joined⟩
  · exact vouched.cleared done some_done first

theorem Vouched.offerAll (vouched : s.Vouched checks) {actions : List Action}
    {more : List (Action × Schedule)} (offered : s.offerAll actions = .ok more)
    (granted : ∀ d ∈ more.map Prod.snd, d.granted ∈ checks) : (s.after more).Vouched checks := by
  induction actions generalizing s more with
  | nil =>
    cases offered
    exact vouched
  | cons a rest ih =>
    obtain ⟨bound, longer, behind, first, others, rfl⟩ := offerAll_cons_eq_ok_iff.mp offered
    rw [List.map_cons, List.forall_mem_cons] at granted
    rw [after_cons]
    exact ih (vouched.offer first granted.1) others granted.2

end Schedule

namespace Session

variable {σ τ : Type} {b : Backend σ τ} {s : Session σ τ} {call : Call} {calls : List Call}

/-- Whether calls ask about every action that they add: single offers do, batches by the
settings. -/
def AsksEach (settings : Settings) (calls : List Call) : Prop :=
  settings.checkEach = true ∨ ∀ actions, Call.add actions ∉ calls

theorem Happens.checks_subset {t : Session σ τ} {events : List (Event τ)}
    (happens : Happens b events s t) : s.checks ⊆ t.checks := by
  rw [checks, checks, happens.trace, List.filterMap_append]
  exact List.subset_append_left _ _

theorem Passes.granted_mem {ds : List Schedule} {t : Session σ τ} (passes : Passes b ds s t) :
    ∀ d ∈ ds, d.granted ∈ t.checks := by
  intro d mem
  rw [passes.checks]
  exact List.mem_append_right _ (List.mem_map_of_mem mem)

/-- A call makes the schedule grow by actions that are offered one by one. If it asks about each of
them, the schedules on the way have been found legal by the end. -/
theorem grown_step (b : Backend σ τ) (s : Session σ τ) (call : Call) :
    ∃ actions more, s.schedule.offerAll actions = .ok more ∧
      (s.step b call).schedule = s.schedule.after more ∧
      (AsksEach s.schedule.settings [call] →
        ∀ d ∈ more.map Prod.snd, d.granted ∈ (s.step b call).checks) := by
  have unchanged {t : Session σ τ} (same : t.schedule = s.schedule) :
      ∃ actions more, s.schedule.offerAll actions = .ok more ∧
        t.schedule = s.schedule.after more ∧
        (AsksEach s.schedule.settings [call] → ∀ d ∈ more.map Prod.snd, d.granted ∈ t.checks) :=
    ⟨[], [], rfl, same, by simp⟩
  cases call with
  | apply a =>
    by_cases accepted : (s.apply b a).1 = .ok .accepted
    · obtain ⟨bound, longer, offered, next, passes⟩ := passes_apply b a s accepted
      exact ⟨[a], [(bound, longer)],
        Schedule.offerAll_cons_eq_ok_iff.mpr ⟨bound, longer, [], offered, rfl, rfl⟩, next,
        fun _ => passes.granted_mem⟩
    · exact unchanged (schedule_apply b a s accepted)
  | add actions =>
    cases added : (s.add b actions).1 with
    | error e => exact unchanged (schedule_of_add_error added)
    | ok _ =>
      obtain ⟨more, offered, next, passes⟩ := passes_add added
      refine ⟨actions, more, offered, next, fun asks => ?_⟩
      have wanted := asks.resolve_right fun never => never actions (by simp)
      rw [Settings.asks_of_wanted wanted] at passes
      exact passes.granted_mem
  | isLegal => exact unchanged (schedule_isLegal b s)
  | execute runs => exact unchanged (schedule_execute b runs s)
  | run => exact unchanged (schedule_execute b _ s)

theorem settings_step (b : Backend σ τ) (s : Session σ τ) (call : Call) :
    (s.step b call).schedule.settings = s.schedule.settings := by
  obtain ⟨actions, more, offered, next, -⟩ := grown_step b s call
  rw [next, (Schedule.actions_of_offerAll offered).2.2]

theorem settings_steps (b : Backend σ τ) (s : Session σ τ) (calls : List Call) :
    (s.steps b calls).schedule.settings = s.schedule.settings := by
  induction calls generalizing s with
  | nil => rfl
  | cons call calls ih => exact (ih _).trans (settings_step b s call)

/-- A call that asks about each action leaves the schedule vouched for. -/
theorem vouched_step (vouched : s.schedule.Vouched s.checks)
    (asks : AsksEach s.schedule.settings [call]) :
    (s.step b call).schedule.Vouched (s.step b call).checks := by
  obtain ⟨events, happens, -⟩ := gated_step b s call
  obtain ⟨actions, more, offered, next, granted⟩ := grown_step b s call
  rw [next]
  exact (vouched.mono happens.checks_subset).offerAll offered (granted asks)

theorem vouched_steps (vouched : s.schedule.Vouched s.checks)
    (asks : AsksEach s.schedule.settings calls) :
    (s.steps b calls).schedule.Vouched (s.steps b calls).checks := by
  induction calls generalizing s with
  | nil => exact vouched
  | cons call calls ih =>
    have early : AsksEach s.schedule.settings [call] :=
      asks.imp_right fun never actions mem => never actions (by simp_all)
    have late : AsksEach (s.step b call).schedule.settings calls := by
      rw [settings_step]
      exact asks.imp_right fun never actions mem => never actions (List.mem_cons_of_mem _ mem)
    exact ih (vouched_step vouched early) late

/-- What the record says is what the backend answered, from the first call on. -/
theorem answers_steps (b : Backend σ τ) (s : Session σ τ) (calls : List Call) :
    ∃ events, Happens b events s (s.steps b calls) := by
  induction calls generalizing s with
  | nil => exact ⟨[], .refl⟩
  | cons call calls ih =>
    obtain ⟨events, happens, -⟩ := gated_step b s call
    obtain ⟨events', happens'⟩ := ih (s.step b call)
    exact ⟨events ++ events', happens.trans happens'⟩

/-- A place in the record at which a program is executed: which call of a run executes it, that it
is the program of the schedule, and what the backend was called for before. -/
structure ExecutedIn (b : Backend σ τ) (s : Session σ τ) (call : Call) (earlier : List (Event τ))
    (program : String) (runs : Nat) (answer : Except Backend.Error (List τ)) : Prop where
  began : s.trace <+: earlier
  ended : (s.step b call).trace = earlier ++ [.executed program runs answer]
  unchanged : (s.step b call).schedule = s.schedule
  current : program = s.schedule.program
  cleared : s.schedule.settings.checkFirst = true → lastCall? earlier = some s.schedule.clearance

theorem executedIn_of_step {before behind : List (Event τ)} {program : String} {runs : Nat}
    {answer : Except Backend.Error (List τ)}
    (added : (s.step b call).trace =
      s.trace ++ (before ++ .executed program runs answer :: behind)) :
    behind = [] ∧ ExecutedIn b s call (s.trace ++ before) program runs answer := by
  obtain ⟨events, happens, gated, unchanged⟩ := gated_step b s call
  have same : events = before ++ .executed program runs answer :: behind :=
    List.append_cancel_left (happens.trace.symm.trans added)
  have here : Event.executed program runs answer ∈ events := by simp [same]
  have kept := unchanged _ here rfl
  cases gated with
  | quiet none_executed => cases none_executed _ here
  | @executes events' runs' answer' none_before cleared =>
    rcases List.eq_nil_or_concat' behind with rfl | ⟨init, last, rfl⟩
    · obtain ⟨rfl, executed⟩ := List.append_inj' same rfl
      obtain ⟨rfl, rfl, rfl⟩ := Event.executed.inj (List.singleton_inj.mp executed)
      exact ⟨rfl, List.prefix_append _ _, by rw [added, List.append_assoc], kept, rfl,
        fun wanted => lastCall?_append (cleared wanted)⟩
    · rw [← List.cons_append, ← List.append_assoc] at same
      obtain ⟨rfl, -⟩ := List.append_inj' same rfl
      cases none_before (.executed program runs answer) (by simp)

/-- Every execution in the record of a run is added by one of its calls. -/
theorem executedIn_of_steps (fresh : s.trace = []) {earlier later : List (Event τ)}
    {program : String} {runs : Nat} {answer : Except Backend.Error (List τ)}
    (recorded : (s.steps b calls).trace = earlier ++ .executed program runs answer :: later) :
    ∃ before call after, calls = before ++ call :: after ∧
      ExecutedIn b (s.steps b before) call earlier program runs answer := by
  induction calls using List.reverseRecOn generalizing later with
  | nil => simp [steps, fresh] at recorded
  | append_singleton calls call ih =>
    obtain ⟨events, happens, -⟩ := gated_step b (s.steps b calls) call
    rw [steps_concat, happens.trace] at recorded
    rcases List.append_eq_append_iff.mp recorded with ⟨before, rfl, added⟩ | ⟨rest, split, tail⟩
    · have trace := happens.trace
      rw [added] at trace
      exact ⟨calls, call, [], rfl, (executedIn_of_step trace).2⟩
    · cases rest with
      | nil =>
        have trace := happens.trace
        rw [List.nil_append] at tail
        rw [← tail, ← List.nil_append (_ :: later)] at trace
        obtain rfl : earlier = (s.steps b calls).trace := by simpa using split.symm
        have executed := (executedIn_of_step trace).2
        rw [List.append_nil] at executed
        exact ⟨calls, call, [], rfl, executed⟩
      | cons first rest =>
        obtain ⟨rfl, -⟩ := List.cons.inj tail
        obtain ⟨before, call', after, rfl, executed⟩ := ih split
        exact ⟨before, call', after ++ [call], by simp, executed⟩

/-- In every run of calls on a new session the record says what the backend was asked and answered.
Each execution in it is that of the schedule's program at the time, at the end of a call; with the
setting to ask first, the backend call just before it was the question about this program, answered
that it is legal. Where every action that is added is asked about, the programs of the first actions
of the schedule, however many, have been asked about, joined in order, and found legal. -/
theorem legality_gate (n : Nest) (settings : Settings) (b : Backend σ τ) (state : σ)
    (calls : List Call) :
    let start : Session σ τ := { schedule := { nest := n, settings }, backend := state }
    let t := start.steps b calls
    b.Answers state t.trace t.backend ∧
    (∀ earlier program runs answer later,
      t.trace = earlier ++ .executed program runs answer :: later →
        ∃ before call after, calls = before ++ call :: after ∧
          (start.steps b before).schedule.settings = settings ∧
          ExecutedIn b (start.steps b before) call earlier program runs answer) ∧
    (AsksEach settings calls → ∀ done, done ≠ [] → done <+: t.schedule.actions →
      ∃ c ∈ t.checks, c.answer = .ok .legal ∧ Action.Joined done c.program c.legality) := by
  intro start t
  refine ⟨?_, fun earlier program runs answer later recorded => ?_, fun asks => ?_⟩
  · obtain ⟨events, happens⟩ := answers_steps b start calls
    have trace : t.trace = events := happens.trace
    rw [trace]
    exact happens.answers
  · obtain ⟨before, call, after, rfl, executed⟩ := executedIn_of_steps rfl recorded
    exact ⟨before, call, after, rfl, settings_steps b start before, executed⟩
  · have begun : start.schedule.Vouched start.checks := Schedule.vouched_start n settings
    exact (vouched_steps begun asks).cleared

end Session

def refuseSecond : Backend Nat Unit where
  check _ _ asked := (.ok (if asked = 1 then .illegal "not now" else .legal), asked + 1)
  execute _ runs asked := (.ok (List.replicate runs ()), asked)

theorem gate_blurCalls :
    let start : Session Nat Unit := { schedule := { nest := blurNest }, backend := 0 }
    let t := start.steps refuseSecond blurCalls
    let program := tiledRows.rendering.program
    (∃ earlier before call after,
      t.trace = earlier ++ [.executed program 2 (.ok [(), ()])] ∧
        blurCalls = before ++ call :: after ∧
        (start.steps refuseSecond before).schedule.settings = {} ∧
        Session.ExecutedIn refuseSecond (start.steps refuseSecond before) call earlier program 2
          (.ok [(), ()])) ∧
      ∃ c ∈ t.checks, c.answer = .ok .legal ∧
        Action.Joined [{ tileRows with binding := some tiledRows }] c.program c.legality := by
  intro start t program
  obtain ⟨-, executions, cleared⟩ := Session.legality_gate blurNest {} refuseSecond 0 blurCalls
  have recorded : t.trace = t.trace.dropLast ++ [.executed program 2 (.ok [(), ()])] := by
    unfold t start program
    cbv
  have kept : t.schedule.actions = [{ tileRows with binding := some tiledRows }] := by
    unfold t start
    cbv
  refine ⟨?_, cleared (.inr ?_) _ (List.cons_ne_nil _ _) (by rw [← kept])⟩
  · obtain ⟨before, call, after, split, settings, executed⟩ := executions _ _ _ _ [] recorded
    exact ⟨_, before, call, after, recorded, split, settings, executed⟩
  · simp [blurCalls]

end LoopNest
