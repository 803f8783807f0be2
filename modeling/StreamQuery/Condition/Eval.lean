import StreamQuery.BottomUp
import StreamQuery.Condition.Basic
import StreamQuery.Pattern
import StreamQuery.Scope
import StreamQuery.Value.Order

/-!
# Evaluating conditions

Conditions are evaluated with explicit stacks, so that long chains of
connectives need no deep recursion. A connective looks at its right operand
only if the left one leaves the outcome open; what is skipped contributes
neither a value nor a failure.
-/

namespace StreamQuery

/-- What a relation says about two values. No order holds with `null`.
Membership needs a tuple on the right and a pattern match two strings. -/
def Relation.holds (relation : Relation) (left right : Value) : Except Error Bool :=
  match relation with
  | .equal => .ok (left == right)
  | .notEqual => .ok (!(left == right))
  | .moreThan => ordered .gt
  | .lessThan => ordered .lt
  | .isIn =>
    match right with
    | .tuple items => .ok (items.any fun item => item == left)
    | _ => .error (right.refusedBy "IN")
  | .like =>
    match left, right with
    | .string text, .string pattern => .ok (Pattern.accepts pattern text)
    | .string _, _ => .error (right.refusedBy "LIKE")
    | _, _ => .error (left.refusedBy "LIKE")
where
  ordered (wanted : Ordering) : Except Error Bool :=
    if left.isNull || right.isNull then .ok false
    else do return (← left.compare right) == wanted

namespace Scalar

mutual

def eval (scope : Scope) : Scalar → Except Error Value
  | .var name => scope.get name
  | .const v => .ok v
  | .tuple items => do return .tuple (← evalItems scope items)
termination_by structural s => s

def evalItems (scope : Scope) : List Scalar → Except Error (List Value)
  | [] => .ok []
  | s :: rest => do
    let v ← eval scope s
    return v :: (← evalItems scope rest)
termination_by structural items => items

end

end Scalar

namespace Condition

/-- One piece of work: a condition to evaluate, or what to do with the
outcome of the one before it. -/
inductive Task where
  | eval (condition : Condition)
  | andThen (right : Condition)
  | orElse (right : Condition)
  | negate

def size : Condition → Nat
  | .and left right | .or left right => left.size + right.size + 1
  | .not inner => inner.size + 1
  | _ => 1

def Task.weight : Task → Nat
  | .eval condition => 2 * condition.size
  | .andThen right | .orElse right => 2 * right.size + 1
  | .negate => 1

def remaining (work : List Task) : Nat := total Task.weight work

def evalPredicate (scope : Scope) (left : Scalar) (relation : Relation) (right : Scalar) :
    Except Error Bool := do
  let l ← left.eval scope
  let r ← right.eval scope
  relation.holds l r

def popResult : List Bool → Except Error (Bool × List Bool)
  | b :: results => .ok (b, results)
  | [] => .error (.internal "formula evaluation stack underflow")

def run (scope : Scope) : List Task → List Bool → Except Error (List Bool)
  | [], results => .ok results
  | .eval (.and left right) :: work, results =>
    run scope (.eval left :: .andThen right :: work) results
  | .eval (.or left right) :: work, results =>
    run scope (.eval left :: .orElse right :: work) results
  | .eval (.not inner) :: work, results => run scope (.eval inner :: .negate :: work) results
  | .eval (.const b) :: work, results => run scope work (b :: results)
  | .eval (.predicate left relation right) :: work, results => do
    let b ← evalPredicate scope left relation right
    run scope work (b :: results)
  | .andThen right :: work, results => do
    let (b, results) ← popResult results
    if b then run scope (.eval right :: work) results else run scope work (false :: results)
  | .orElse right :: work, results => do
    let (b, results) ← popResult results
    if b then run scope work (true :: results) else run scope (.eval right :: work) results
  | .negate :: work, results => do
    let (b, results) ← popResult results
    run scope work ((!b) :: results)
termination_by work => remaining work
decreasing_by
  all_goals
    simp only [remaining, total, Task.weight, size]
    omega

def onlyOutcome : List Bool → Except Error Bool
  | [b] => .ok b
  | [] => .error (.internal "formula evaluation stack underflow")
  | _ => .error (.internal "formula evaluation left unconsumed results")

def eval (condition : Condition) (scope : Scope) : Except Error Bool := do
  onlyOutcome (← run scope [.eval condition] [])

end Condition

end StreamQuery
