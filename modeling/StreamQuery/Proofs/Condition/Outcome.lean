import StreamQuery.Condition.Eval
import StreamQuery.Proofs.Outcome

/-!
# Outcomes of conditions

Evaluating a condition on the stack gives what the recursion on it gives
(`eval_eq_outcome`). The stack never runs dry and nothing is left on it.
-/

namespace StreamQuery

/-- The outcome of a conjunction. The second outcome counts only if the first
one leaves it open. -/
def bothHold (left right : Except Error Bool) : Except Error Bool :=
  match left with
  | .ok true => right
  | decided => decided

/-- The outcome of a disjunction. The second outcome counts only if the first
one leaves it open. -/
def eitherHolds (left right : Except Error Bool) : Except Error Bool :=
  match left with
  | .ok false => right
  | decided => decided

namespace Condition

variable {scope : Scope}

def outcome (scope : Scope) : Condition → Except Error Bool
  | .and left right => bothHold (left.outcome scope) (right.outcome scope)
  | .or left right => eitherHolds (left.outcome scope) (right.outcome scope)
  | .not inner => (!·) <$> inner.outcome scope
  | .const b => .ok b
  | .predicate left relation right => evalPredicate scope left relation right

theorem run_eval (condition : Condition) (work : List Task) (results : List Bool) :
    run scope (.eval condition :: work) results =
      condition.outcome scope >>= fun b => run scope work (b :: results) := by
  induction condition generalizing work results with
  | and left right ihl ihr =>
    rw [run, ihl, outcome]
    cases left.outcome scope with
    | error e => rfl
    | ok b =>
      rw [ok_bind, run, popResult, ok_bind]
      cases b with
      | true => exact ihr work results
      | false => rfl
  | or left right ihl ihr =>
    rw [run, ihl, outcome]
    cases left.outcome scope with
    | error e => rfl
    | ok b =>
      rw [ok_bind, run, popResult, ok_bind]
      cases b with
      | true => rfl
      | false => exact ihr work results
  | not inner ih =>
    rw [run, ih, outcome]
    cases inner.outcome scope with
    | error e => rfl
    | ok b =>
      rw [ok_bind, run, popResult]
      rfl
  | const b =>
    rw [run, outcome]
    rfl
  | predicate left relation right => rw [run, outcome]

theorem eval_eq_outcome (condition : Condition) : condition.eval scope = condition.outcome scope := by
  rw [eval, run_eval]
  cases condition.outcome scope with
  | error e => rfl
  | ok b =>
    rw [ok_bind, run]
    rfl

end Condition

end StreamQuery
