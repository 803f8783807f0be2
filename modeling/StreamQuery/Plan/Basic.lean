import StreamQuery.Formula.Basic
import StreamQuery.Operator.Group

/-!
# Plans

A plan is a chain of steps over a scan of a table. Tables are referred to by
values of a type `β`, and two scans are of one table only if they refer to it
alike, whatever the tables hold.
-/

namespace StreamQuery

inductive PlanKind where
  | requalify | filter | group | scan
  deriving DecidableEq, Repr

def PlanKind.all : List PlanKind := [.requalify, .filter, .group, .scan]

def PlanKind.name : PlanKind → String
  | .requalify => "requalifier"
  | .filter => "filter"
  | .group => "group by"
  | .scan => "data source"

/-- What a grouping step asks for: one named aggregate for each of `fields`,
and names for the columns of the key and then of the aggregates. -/
structure GroupSpec where
  key : List Expression
  fields : List Expression
  aggregates : List String
  output : List Name
  emission : Emission

instance : BEq GroupSpec :=
  ⟨fun a b =>
    a.key == b.key && a.fields == b.fields && a.aggregates == b.aggregates &&
      a.output == b.output && a.emission == b.emission⟩

def GroupSpec.ofPairs (key : List Expression) (pairs : List (String × Expression))
    (output : List Name) : GroupSpec :=
  ⟨key, pairs.map Prod.snd, pairs.map Prod.fst, output, .updates⟩

inductive Plan (β : Type) where
  | requalify (qualifier : String) (source : Plan β)
  | filter (formula : Formula) (source : Plan β)
  | group (spec : GroupSpec) (source : Plan β)
  /-- Reads a table under an alias; the table is to apply the filter itself. -/
  | scan (table : β) (qualifier : String) (formula : Formula)

namespace Plan

variable {β : Type}

def kind : Plan β → PlanKind
  | .requalify _ _ => .requalify
  | .filter _ _ => .filter
  | .group _ _ => .group
  | .scan _ _ _ => .scan

def withEmission (emission : Emission) : Plan β → Plan β
  | .group spec source => .group { spec with emission } source
  | plan => plan

def beq [BEq β] : Plan β → Plan β → Bool
  | .requalify a s, .requalify b t => a == b && beq s t
  | .filter f s, .filter g t => f == g && beq s t
  | .group a s, .group b t => a == b && beq s t
  | .scan t a f, .scan u b g => a == b && t == u && f == g
  | _, _ => false

instance [BEq β] : BEq (Plan β) := ⟨beq⟩

end Plan

end StreamQuery
