import StreamQuery.Plan.Compile
import StreamQuery.Pushdown.Fragment

/-!
# Tables in a database

A scan of such a table is one query, with the filter pushed into it. The
parameters are bound anew each time that the query is run.
-/

namespace StreamQuery

/-- A connection to a database. It runs a text of SQL with the values of its
placeholders; the columns of the records need not be qualified. -/
structure SqlClient (m : Type → Type) where
  query : (sql : String) → (parameters : List Value) → ExceptT Error m RecordStream

structure SqlTable (m : Type → Type) where
  name : String
  client : SqlClient m
  dialect : Dialect

variable {m : Type → Type} [Monad m]

def Operator.sql (client : SqlClient m) (sql qualifier : String) (parameters : Parameters) :
    Operator m where
  start execution signals := do
    liftOutcome (execution.query.check signals)
    let values ← liftOutcome (parameters.bind execution.scope)
    let stream ← client.query sql values
    return stream.filterMap fun item => some (item.map fun record => record.requalify qualifier)

namespace SqlTable

def selectText (table : SqlTable m) (qualifier condition : String) : String :=
  "SELECT * FROM " ++ table.name ++ " " ++ qualifier ++ " WHERE " ++ condition

def compile (table : SqlTable m) (formula : Formula) (qualifier : String) :
    Except Error (Operator m) := do
  let fragment ← formula.pushDown qualifier table.dialect
  let parameters ← fragment.placeholders.compile
  return .sql table.client (table.selectText qualifier fragment.sql) qualifier parameters

def toTable (sql : SqlTable m) : Table m where
  name := sql.name
  compile _ formula qualifier := liftOutcome (sql.compile formula qualifier)

end SqlTable

end StreamQuery
