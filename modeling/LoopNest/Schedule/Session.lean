import LoopNest.Schedule.Basic

/-! Sessions: work on a schedule with a backend. Everything that happens, log lines and questions
to the backend with their answers, is kept in order, also where a step fails. -/
namespace LoopNest

inductive LogLevel where
  | debug
  | info
  | warn
deriving DecidableEq

/-- Something that happens while a schedule is worked on: a log line, or a question to the backend
with its answer. -/
inductive Event (τ : Type) where
  | logged (level : LogLevel) (text : String)
  | checked (program legality : String) (answer : Except Backend.Error Verdict)
  | executed (program : String) (runs : Nat) (answer : Except Backend.Error (List τ))

inductive Outcome where
  | accepted
  | rejected (reason : String)
deriving DecidableEq

/-- A schedule at work with a backend, and all that has happened so far. -/
structure Session (σ τ : Type) where
  schedule : Schedule
  backend : σ
  trace : List (Event τ) := []

namespace Session

variable {σ τ : Type}

def note (s : Session σ τ) (event : Event τ) : Session σ τ :=
  { s with trace := s.trace ++ [event] }

def log (s : Session σ τ) (level : LogLevel) (text : String) : Session σ τ :=
  s.note (.logged level text)

def ask (b : Backend σ τ) (program legality : String) (s : Session σ τ) :
    Except Schedule.Error Verdict × Session σ τ :=
  let (answer, state) := b.check program legality s.backend
  (answer.mapError .backend, { s with backend := state }.note (.checked program legality answer))

/-- Offers an action: it is bound, and kept if the backend finds the longer program legal. -/
def apply (b : Backend σ τ) (a : Action) (s : Session σ τ) :
    Except Schedule.Error Outcome × Session σ τ :=
  match s.schedule.offer a with
  | .error e => (.error (.action e), s)
  | .ok (bound, longer) =>
    match s.ask b longer.program longer.legality with
    | (.error e, s) => (.error e, s)
    | (.ok .legal, s) =>
      (.ok .accepted, { s.log .info ("accepted " ++ bound.text) with schedule := longer })
    | (.ok (.illegal reason), s) =>
      (.ok (.rejected reason),
        s.log (if s.schedule.settings.warnRejected then .warn else .info)
          ("rejected " ++ bound.text ++ ": " ++ reason))

def askEach (b : Backend σ τ) (draft : Schedule) (s : Session σ τ) :
    Except Schedule.Error Verdict × Session σ τ :=
  if draft.settings.checkEach then s.ask b draft.program draft.legality else (.ok .legal, s)

/-- Adds actions one by one to a draft, up to the first that cannot be bound or is not legal. The
schedule itself stays as it is. -/
def draftAll (b : Backend σ τ) : List Action → Schedule → Session σ τ →
    Except Schedule.Error Schedule × Session σ τ
  | [], draft, s => (.ok draft, s)
  | a :: rest, draft, s =>
    match draft.offer a with
    | .error e => (.error (.action e), s)
    | .ok (bound, longer) =>
      match s.askEach b longer with
      | (.error e, s) => (.error e, s)
      | (.ok (.illegal reason), s) => (.error (.illegal (bound.text ++ ": " ++ reason)), s)
      | (.ok .legal, s) => draftAll b rest longer (s.log .debug ("queued " ++ bound.text))

/-- Adds a batch of actions: all of them or, if one fails, none. -/
def add (b : Backend σ τ) (actions : List Action) (s : Session σ τ) :
    Except Schedule.Error Unit × Session σ τ :=
  match draftAll b actions s.schedule s with
  | (.error e, s) => (.error e, s)
  | (.ok longer, s) =>
    (.ok (),
      { s.log .info ("added " ++ toString actions.length ++ " optimizations") with
        schedule := longer })

def isLegal (b : Backend σ τ) (s : Session σ τ) : Except Schedule.Error Bool × Session σ τ :=
  match s.ask b s.schedule.program s.schedule.legality with
  | (.error e, s) => (.error e, s)
  | (.ok verdict, s) => (.ok (verdict == .legal), s)

def executeUnchecked (b : Backend σ τ) (runs : Nat) (s : Session σ τ) :
    Except Schedule.Error (List τ) × Session σ τ :=
  let s := s.log .debug ("executing " ++ s.schedule.text ++ " (" ++ toString runs ++ " runs)")
  let (answer, state) := b.execute s.schedule.program runs s.backend
  (answer.mapError .backend,
    { s with backend := state }.note (.executed s.schedule.program runs answer))

/-- Executes the schedule's program a number of times, if it is legal or the settings do not want
to know. -/
def execute (b : Backend σ τ) (runs : Nat) (s : Session σ τ) :
    Except Schedule.Error (List τ) × Session σ τ :=
  if s.schedule.settings.checkFirst then
    match s.ask b s.schedule.program s.schedule.legality with
    | (.error e, s) => (.error e, s)
    | (.ok (.illegal reason), s) => (.error (.illegal reason), s)
    | (.ok .legal, s) => s.executeUnchecked b runs
  else s.executeUnchecked b runs

def run (b : Backend σ τ) (s : Session σ τ) : Except Schedule.Error (List τ) × Session σ τ :=
  s.execute b s.schedule.settings.runs

end Session

end LoopNest
