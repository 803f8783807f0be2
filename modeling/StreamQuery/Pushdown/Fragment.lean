import StreamQuery.Pushdown.Placeholders

/-!
# SQL for formulas

A formula becomes the condition of a WHERE clause. Columns of the database's
own table are written by name and every other operand becomes a placeholder.
All operands stand in parentheses, so the text does not depend on the
precedence of operators.
-/

namespace StreamQuery

structure SqlFragment where
  sql : String
  placeholders : Placeholders

/-- The bare name of a column of the alias itself, a placeholder for anything else. -/
def Expression.toSql (e : Expression) (ps : Placeholders) : String × Placeholders :=
  match e with
  | .var name =>
    if name.source = some ps.qualifier then (name.column, ps) else ps.record e
  | _ => ps.record e

namespace Formula

def assembleSql : Formula → List String → ExceptT Error (StateM Placeholders) String
  | .and _ _, children => do
    let (left, right) ← liftOutcome (takeTwo children)
    return "(" ++ left ++ ") AND (" ++ right ++ ")"
  | .or _ _, children => do
    let (left, right) ← liftOutcome (takeTwo children)
    return "(" ++ left ++ ") OR (" ++ right ++ ")"
  | .not _, children => do
    let inner ← liftOutcome (takeOne children)
    return "NOT (" ++ inner ++ ")"
  | .const b, _ => do return (← get).dialect.boolToken b
  | .predicate left relation right, _ => do
    let left ← modifyGet left.toSql
    let right ← modifyGet right.toSql
    return "(" ++ left ++ ") " ++ relation.token ++ " (" ++ right ++ ")"

def toSql (f : Formula) (ps : Placeholders) : Except Error String × Placeholders :=
  (BottomUp.foldPure children assembleSql f).run.run ps

/-- The condition that stands for a formula in queries to the table with this alias. -/
def pushDown (f : Formula) (qualifier : String) (dialect : Dialect) : Except Error SqlFragment :=
  let (sql, placeholders) := f.toSql (.start qualifier dialect)
  sql.map fun sql => ⟨sql, placeholders⟩

end Formula

end StreamQuery
