import StreamQuery.Proofs.Condition.Compile
import StreamQuery.Proofs.Condition.Outcome
import StreamQuery.Proofs.Condition.Scalar
import StreamQuery.Proofs.Scope

/-!
# What formulas mean

The outcome of a formula is said by recursion on the formula itself
(`Formula.outcome`): operands before their relation, left before right, and
the right side of a connective only if the left one leaves the outcome open.
Compiling a formula and evaluating the result on the stack gives this outcome
and nothing else (`compiled_outcome`).

Evaluation fails only for what the operands are (`Error.OfOperands`): a name
without a value, a value that a relation does not take, or two values without
an order. So the stack itself never fails.
-/

namespace StreamQuery

-- ---------------------------------------------------------------------------
-- Meaning
-- ---------------------------------------------------------------------------

namespace Expression

variable {scope : Scope}

mutual

/-- The value of an expression, or the failure of its first variable from the
left that has none. -/
def value (scope : Scope) : Expression → Except Error Value
  | .var name => scope.get name
  | .const v => .ok v
  | .tuple items => do return .tuple (← valuesOfItems scope items)
termination_by structural e => e

def valuesOfItems (scope : Scope) : List Expression → Except Error (List Value)
  | [] => .ok []
  | e :: rest => do
    let v ← value scope e
    let vs ← valuesOfItems scope rest
    return v :: vs
termination_by structural items => items

end

mutual

theorem eval_compiled : (e : Expression) → e.compiled.eval scope = e.value scope
  | .var _ | .const _ => rfl
  | .tuple items => by
    rw [compiled, Scalar.eval, value, evalItems_compiled items]
termination_by structural e => e

theorem evalItems_compiled : (items : List Expression) →
    Scalar.evalItems scope (compiledItems items) = valuesOfItems scope items
  | [] => rfl
  | e :: rest => by
    rw [compiledItems, Scalar.evalItems, valuesOfItems, eval_compiled e, evalItems_compiled rest]
termination_by structural items => items

end

def evaluate (scope : Scope) (e : Expression) : Except Error Value := do
  (← e.compile).eval scope

theorem evaluate_eq (scope : Scope) : evaluate scope = value scope := by
  funext e
  rw [evaluate, compile_eq, ok_bind, eval_compiled]

end Expression

namespace Formula

variable {scope : Scope}

def outcome (scope : Scope) : Formula → Except Error Bool
  | .and left right => bothHold (left.outcome scope) (right.outcome scope)
  | .or left right => eitherHolds (left.outcome scope) (right.outcome scope)
  | .not inner => do return !(← inner.outcome scope)
  | .const b => .ok b
  | .predicate left relation right => do
    let l ← left.value scope
    let r ← right.value scope
    relation.holds l r

theorem outcome_compiled (f : Formula) : f.compiled.outcome scope = f.outcome scope := by
  induction f with
  | and left right ihl ihr => rw [compiled, Condition.outcome, outcome, ihl, ihr]
  | or left right ihl ihr => rw [compiled, Condition.outcome, outcome, ihl, ihr]
  | not inner ih =>
    rw [compiled, Condition.outcome, outcome, ih]
    cases inner.outcome scope <;> rfl
  | const b => rfl
  | predicate left relation right =>
    rw [compiled, Condition.outcome, outcome, Condition.evalPredicate, Expression.eval_compiled,
      Expression.eval_compiled]

theorem eval_compiled (f : Formula) : f.compiled.eval scope = f.outcome scope := by
  rw [Condition.eval_eq_outcome, outcome_compiled]

/-- The outcome of compiling a formula and evaluating the result. -/
def evaluate (scope : Scope) (f : Formula) : Except Error Bool := do
  (← f.compile).eval scope

theorem evaluate_eq (scope : Scope) : evaluate scope = outcome scope := by
  funext f
  rw [evaluate, compile_eq, ok_bind, eval_compiled]

end Formula

-- ---------------------------------------------------------------------------
-- Failures
-- ---------------------------------------------------------------------------

inductive Error.OfOperands : Error → Prop
  | unbound (entity : String) : OfOperands (.notFound entity)
  | refused (context kind : String) (value : Rendering) : OfOperands (.invalidType context kind value)
  | unordered (left right : String) : OfOperands (.typeMismatch left right)

theorem Scope.get_error {scope : Scope} (h : scope.get name = .error e) : e.OfOperands := by
  obtain ⟨rfl, -⟩ := get_eq_error.mp h
  exact .unbound _

namespace Value

mutual

theorem compare_error : (a b : Value) → a.compare b = .error e → e.OfOperands
  | .null, b, h | .int _, b, h | .float _, b, h | .string _, b, h | .bool _, b, h | .time _, b, h
  | .duration _, b, h => by
    cases b <;> cases h <;> exact .unordered _ _
  | .tuple as, b, h => by
    cases b with
    | tuple bs => exact compareItems_error as bs h
    | _ =>
      cases h
      exact .unordered _ _
  | .object as, b, h => by
    cases b with
    | object bs => exact compareFields_error as bs h
    | _ =>
      cases h
      exact .unordered _ _
termination_by structural a => a

theorem compareItems_error : (as bs : List Value) → compareItems as bs = .error e → e.OfOperands
  | [], bs, h => by cases bs <;> cases h
  | a :: as, bs, h => by
    cases bs with
    | nil => cases h
    | cons b bs =>
      rw [compareItems] at h
      split at h
      · exact compareItems_error as bs h
      · exact compare_error a b h
termination_by structural as => as

theorem compareFields_error : (as bs : List (String × Value)) → compareFields as bs = .error e →
    e.OfOperands
  | [], bs, h => by cases bs <;> cases h
  | (m, a) :: as, bs, h => by
    cases bs with
    | nil => cases h
    | cons field bs =>
      rw [compareFields] at h
      split at h
      · split at h
        · exact compareFields_error as bs h
        · exact compare_error a field.2 h
      · cases h
termination_by structural as => as

end

end Value

theorem Relation.ordered_error {wanted : Ordering}
    (h : Relation.holds.ordered left right wanted = .error e) : e.OfOperands := by
  unfold holds.ordered at h
  split at h
  · cases h
  · rcases bind_error.mp h with h | ⟨order, -, h⟩
    · exact Value.compare_error left right h
    · cases h

theorem Relation.holds_error {relation : Relation} (h : relation.holds left right = .error e) :
    e.OfOperands := by
  cases relation with
  | equal | notEqual => cases h
  | moreThan | lessThan => exact ordered_error h
  | isIn =>
    simp only [holds] at h
    split at h
    · cases h
    · cases h
      exact .refused _ _ _
  | like =>
    simp only [holds] at h
    split at h
    · cases h
    · cases h
      exact .refused _ _ _
    · cases h
      exact .refused _ _ _

namespace Expression

variable {scope : Scope}

mutual

theorem value_error : (x : Expression) → x.value scope = .error e → e.OfOperands
  | .var _, h => Scope.get_error h
  | .const _, h => by cases h
  | .tuple items, h => by
    rcases bind_error.mp h with h | ⟨vs, -, h⟩
    · exact valuesOfItems_error items h
    · cases h
termination_by structural x => x

theorem valuesOfItems_error : (items : List Expression) →
    valuesOfItems scope items = .error e → e.OfOperands
  | [], h => by cases h
  | x :: rest, h => by
    rcases bind_error.mp h with h | ⟨v, -, h⟩
    · exact value_error x h
    · rcases bind_error.mp h with h | ⟨vs, -, h⟩
      · exact valuesOfItems_error rest h
      · cases h
termination_by structural items => items

end

end Expression

namespace Formula

variable {scope : Scope}

theorem outcome_error {f : Formula} (h : f.outcome scope = .error e) : e.OfOperands := by
  induction f with
  | and left right ihl ihr =>
    simp only [outcome, bothHold] at h
    split at h
    · exact ihr h
    · exact ihl h
  | or left right ihl ihr =>
    simp only [outcome, eitherHolds] at h
    split at h
    · exact ihr h
    · exact ihl h
  | not inner ih =>
    rcases bind_error.mp h with h | ⟨b, -, h⟩
    · exact ih h
    · cases h
  | const b => cases h
  | predicate left relation right =>
    rcases bind_error.mp h with h | ⟨l, -, h⟩
    · exact Expression.value_error left h
    · rcases bind_error.mp h with h | ⟨r, -, h⟩
      · exact Expression.value_error right h
      · exact Relation.holds_error h

/-- A formula is compiled without fail, and evaluating the result gives the
outcome of the formula. The stack of the evaluation never causes a failure.
What stands to the right of a conjunction or a disjunction does not count if
the left side has decided it. -/
theorem compiled_outcome (f : Formula) (scope : Scope) :
    ∃ condition, f.compile = .ok condition ∧ condition.eval scope = f.outcome scope ∧
      (∀ message, condition.eval scope ≠ .error (.internal message)) ∧
      (f.outcome scope = .ok false → ∀ skipped : Formula, ∃ whole,
        (f.and skipped).compile = .ok whole ∧ whole.eval scope = .ok false) ∧
      (f.outcome scope = .ok true → ∀ skipped : Formula, ∃ whole,
        (f.or skipped).compile = .ok whole ∧ whole.eval scope = .ok true) := by
  refine ⟨f.compiled, compile_eq f, eval_compiled f, ?_, ?_, ?_⟩
  · intro message h
    rw [eval_compiled] at h
    cases outcome_error h
  · intro h skipped
    refine ⟨_, compile_eq _, ?_⟩
    rw [eval_compiled, outcome, h]
    rfl
  · intro h skipped
    refine ⟨_, compile_eq _, ?_⟩
    rw [eval_compiled, outcome, h]
    rfl

def unbound : Formula := .predicate (.var ⟨"t", "a"⟩) .equal (.const .null)

/-- By itself the formula fails, but not where it is skipped. -/
theorem compiled_outcome_of_skipped :
    (∃ condition, unbound.compile = .ok condition ∧
      condition.eval .empty = .error (.notFound "variable t.a")) ∧
    (∃ whole, ((const false).and unbound).compile = .ok whole ∧ whole.eval .empty = .ok false) ∧
    ∃ whole, ((const true).or unbound).compile = .ok whole ∧ whole.eval .empty = .ok true := by
  obtain ⟨condition, hcompile, heval, -⟩ := compiled_outcome unbound .empty
  obtain ⟨-, -, -, -, hand, -⟩ := compiled_outcome (.const false) .empty
  obtain ⟨-, -, -, -, -, hor⟩ := compiled_outcome (.const true) .empty
  exact ⟨⟨condition, hcompile, heval.trans rfl⟩, hand rfl unbound, hor rfl unbound⟩

end Formula

end StreamQuery
