import StreamQuery.Condition.Compile
import StreamQuery.Condition.Eval
import StreamQuery.Pushdown.Dialect

/-!
# Placeholders

The expressions that a query sent to a database leaves out are numbered
placeholders, whose values are computed here and sent along. Numbers are handed
out once, and the entries stand in the order of their numbers.
-/

namespace StreamQuery

structure Placeholders where
  entries : List (String × Expression)
  counter : Nat
  qualifier : String
  dialect : Dialect

structure Parameters where
  entries : List (String × Scalar)

namespace Placeholders

def start (qualifier : String) (dialect : Dialect) : Placeholders := ⟨[], 1, qualifier, dialect⟩

/-- Hands out the next placeholder, without an expression for it. -/
def fresh (ps : Placeholders) : String × Placeholders :=
  (ps.dialect.placeholder ps.counter, { ps with counter := ps.counter + 1 })

def record (ps : Placeholders) (e : Expression) : String × Placeholders :=
  let (placeholder, ps) := ps.fresh
  (placeholder, { ps with entries := ps.entries ++ [(placeholder, e)] })

def get? (ps : Placeholders) (placeholder : String) : Option Expression :=
  (ps.entries.find? fun entry => entry.1 == placeholder).map Prod.snd

def compile (ps : Placeholders) : Except Error Parameters := do
  return ⟨← ps.entries.mapM fun (placeholder, e) => do
    return (placeholder, ← wrapFailure "expression" e.compile)⟩

end Placeholders

namespace Parameters

def placeholders (ps : Parameters) : List String := ps.entries.map Prod.fst

def bind (ps : Parameters) (scope : Scope) : Except Error (List Value) :=
  Scalar.evalItems scope (ps.entries.map Prod.snd)

end Parameters

end StreamQuery
