import StreamQuery.Condition.Compile
import StreamQuery.Plan.Basic

/-!
# Compiling plans

A plan compiles to an operator, its source first. A failure names the kind of
the step in which it arose and of every step around it, so that the wrapping
spells out the path from the root of the plan to the cause.
-/

namespace StreamQuery

/-- A table that plans can scan. It compiles, under an alias, to an operator
whose records satisfy the filter and are qualified with the alias. -/
structure Table (m : Type → Type) where
  name : String
  compile : Query → Formula → (qualifier : String) → ExceptT Error m (Operator m)

namespace GroupSpec

def compile (spec : GroupSpec) : Except Error Grouping := do
  let key ← spec.key.mapM Expression.compile
  let inputs ← spec.fields.mapM Expression.compile
  let functions ← spec.aggregates.mapM AggregateFunction.ofName
  Grouping.make key inputs functions spec.output spec.emission

end GroupSpec

variable {m : Type → Type} [Monad m] {β : Type}

def Plan.compile (tables : β → Table m) (query : Query) (signals : Signals) :
    Plan β → ExceptT Error m (Operator m)
  | .requalify qualifier source =>
    within .requalify do
      let source ← source.compile tables query signals
      return .requalify qualifier source
  | .filter formula source =>
    within .filter do
      let source ← source.compile tables query signals
      return .filter (← liftOutcome formula.compile) source
  | .group spec source =>
    within .group do
      let source ← source.compile tables query signals
      return .group (← liftOutcome spec.compile) source
  | .scan table qualifier formula =>
    within .scan ((tables table).compile query formula qualifier)
where
  within (kind : PlanKind) (step : ExceptT Error m (Operator m)) : ExceptT Error m (Operator m) :=
    ExceptT.adapt (Error.compile kind.name) do
      liftOutcome (query.check signals)
      step

end StreamQuery
