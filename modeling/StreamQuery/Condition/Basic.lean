import StreamQuery.Formula.Basic

/-!
# Compiled expressions and conditions

What running operators evaluate: the compiled form of the expressions and
formulas of a plan.
-/

namespace StreamQuery

inductive Scalar where
  | var (name : Name)
  | const (v : Value)
  | tuple (items : List Scalar)

instance : Inhabited Scalar := ⟨.tuple []⟩

inductive Condition where
  | and (left right : Condition)
  | or (left right : Condition)
  | not (inner : Condition)
  | const (b : Bool)
  | predicate (left : Scalar) (relation : Relation) (right : Scalar)

instance : Inhabited Condition := ⟨.const true⟩

end StreamQuery
