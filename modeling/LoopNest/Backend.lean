/-! Backends: whatever judges and executes programs. A backend has a state of its own, so its
answers may change from one question to the next. -/
namespace LoopNest

inductive Verdict where
  | legal
  | illegal (reason : String)
deriving DecidableEq

inductive Backend.Error where
  | failure (text : String)
  | io (text : String)
deriving DecidableEq

def Backend.Error.message : Backend.Error → String
  | failure text => "backend failure: " ++ text
  | io text => "backend I/O error: " ++ text

/-- A backend with states `σ` and times `τ`. -/
structure Backend (σ τ : Type) where
  check : String → String → σ → Except Backend.Error Verdict × σ
  execute : String → Nat → σ → Except Backend.Error (List τ) × σ

end LoopNest
