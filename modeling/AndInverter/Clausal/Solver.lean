import AndInverter.Clausal.Formula

/-!
# Solvers

A solver decides whether a formula has a model that also makes the assumed literals true. It may
learn from one question for the next, so it carries a state.
-/

namespace AndInverter.Clausal

inductive Outcome where
  | unsatisfiable
  | satisfiable (model : Nat → Bool)
  /-- The solver gave out, for the given reason. -/
  | unknown (reason : String)

/-- A decision procedure with states in `σ`. -/
structure Solver (σ : Type) where
  /-- The state before the first question. -/
  start : σ
  solve : Formula → List Literal → StateM σ Outcome

end AndInverter.Clausal
