import StreamQuery.Condition.Eval
import StreamQuery.Stream

/-!
# Operators

An operator starts a stream of records for one execution of a query. Starting
may call on collaborators outside, in the monad `m`; afterwards the stream runs
by itself. Sources look at the signals when they start, operators over other
operators leave that to their source.
-/

namespace StreamQuery

structure Execution where
  query : Query
  scope : Scope

structure Operator (m : Type → Type) where
  start : Execution → Signals → ExceptT Error m RecordStream

namespace Operator

variable {m : Type → Type} [Monad m]

def values (records : List Record) : Operator m where
  start execution signals := do
    liftOutcome (execution.query.check signals)
    return .ofRecords records

def ofRows (names : List Name) (rows : List (List Value)) : Except Error (Operator m) := do
  return values (← rows.mapM (Record.ofLists names))

/-- What a filter makes of an item: failures pass, records pass if the
condition holds, and where it has no outcome its failure takes their place. -/
def keepIf (condition : Condition) (scope : Scope) : Item → Option Item
  | .error e => some (.error e)
  | .ok record =>
    match condition.eval (scope.withRecord record) with
    | .ok true => some (.ok record)
    | .ok false => none
    | .error e => some (.error e)

def filter (condition : Condition) (source : Operator m) : Operator m where
  start execution signals := do
    let stream ← source.start execution signals
    return stream.filterMap (keepIf condition execution.scope)

def requalify (qualifier : String) (source : Operator m) : Operator m where
  start execution signals := do
    let stream ← source.start execution signals
    return stream.filterMap fun item => some (item.map fun record => record.requalify qualifier)

end Operator

end StreamQuery
