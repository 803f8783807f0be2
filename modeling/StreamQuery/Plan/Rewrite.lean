import StreamQuery.Formula.Shape
import StreamQuery.Plan.Basic

/-!
# Rewriting plans

Hooks are kept in tables by element kind. A plan is rebuilt from the leaves up;
the hook for the kind of a rebuilt element, if there is one, is applied to it
once. Hooks run in a monad `m`, and where no hook could apply nothing is
rebuilt.
-/

namespace StreamQuery

structure Hooks (m : Type → Type) (β : Type) where
  expression : ExpressionKind → Option (Expression → m Expression)
  formula : FormulaKind → Option (Formula → m Formula)
  plan : PlanKind → Option (Plan β → m (Plan β))

namespace Hooks

variable {m : Type → Type} {β : Type}

def none : Hooks m β := ⟨fun _ => .none, fun _ => .none, fun _ => .none⟩

def hasNoExpression (hooks : Hooks m β) : Bool :=
  ExpressionKind.all.all fun kind => (hooks.expression kind).isNone

def hasNoFormula (hooks : Hooks m β) : Bool :=
  FormulaKind.all.all fun kind => (hooks.formula kind).isNone

def hasNoPlan (hooks : Hooks m β) : Bool :=
  PlanKind.all.all fun kind => (hooks.plan kind).isNone

def isEmpty (hooks : Hooks m β) : Bool :=
  hooks.hasNoPlan && hooks.hasNoExpression && hooks.hasNoFormula

variable [Monad m]

def applyExpression (hooks : Hooks m β) (e : Expression) : m Expression :=
  match hooks.expression e.kind with
  | some hook => hook e
  | .none => pure e

def applyFormula (hooks : Hooks m β) (f : Formula) : m Formula :=
  match hooks.formula f.kind with
  | some hook => hook f
  | .none => pure f

def applyPlan (hooks : Hooks m β) (plan : Plan β) : m (Plan β) :=
  match hooks.plan plan.kind with
  | some hook => hook plan
  | .none => pure plan

end Hooks

variable {m : Type → Type} [Monad m] {β : Type}

def Expression.rewrite (hooks : Hooks m β) (e : Expression) : ExceptT Error m Expression :=
  if hooks.hasNoExpression then pure e
  else
    BottomUp.foldPure children
      (fun e children => ExceptT.lift (hooks.applyExpression (e.withChildren children))) e

namespace Formula

/-- The formula with these children in place of its own, and with rewritten
operands if it is a predicate. -/
def rebuild (hooks : Hooks m β) : Formula → List Formula → ExceptT Error m Formula
  | .and _ _, children => do
    let (left, right) ← liftOutcome (takeTwo children)
    return .and left right
  | .or _ _, children => do
    let (left, right) ← liftOutcome (takeTwo children)
    return .or left right
  | .not _, children => do return .not (← liftOutcome (takeOne children))
  | .const b, _ => return .const b
  | .predicate left relation right, _ => do
    let left ← left.rewrite hooks
    let right ← right.rewrite hooks
    return .predicate left relation right

def rewrite (hooks : Hooks m β) (f : Formula) : ExceptT Error m Formula :=
  if hooks.hasNoFormula && hooks.hasNoExpression then pure f
  else
    BottomUp.foldPure children
      (fun f children => do
        let rebuilt ← f.rebuild hooks children
        ExceptT.lift (hooks.applyFormula rebuilt)) f

end Formula

def GroupSpec.rewrite (hooks : Hooks m β) (spec : GroupSpec) : ExceptT Error m GroupSpec := do
  let key ← spec.key.mapM (Expression.rewrite hooks)
  let fields ← spec.fields.mapM (Expression.rewrite hooks)
  return { spec with key, fields }

/-- Rewrites a plan for a query that may be stopped meanwhile. The formula of a
filter comes before its source, and the source of a grouping before its
expressions. -/
def Plan.rewrite (hooks : Hooks m β) (query : Query) (signals : Signals) :
    Plan β → ExceptT Error m (Plan β)
  | .requalify qualifier source => do
    liftOutcome (query.check signals)
    let source ← source.rewrite hooks query signals
    ExceptT.lift (hooks.applyPlan (.requalify qualifier source))
  | .filter formula source => do
    liftOutcome (query.check signals)
    let formula ← formula.rewrite hooks
    let source ← source.rewrite hooks query signals
    ExceptT.lift (hooks.applyPlan (.filter formula source))
  | .group spec source => do
    liftOutcome (query.check signals)
    let source ← source.rewrite hooks query signals
    let spec ← spec.rewrite hooks
    ExceptT.lift (hooks.applyPlan (.group spec source))
  | .scan table qualifier formula => do
    liftOutcome (query.check signals)
    let formula ← formula.rewrite hooks
    ExceptT.lift (hooks.applyPlan (.scan table qualifier formula))

end StreamQuery
