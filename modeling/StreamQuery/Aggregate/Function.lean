import StreamQuery.Value.Text

/-!
# Aggregate functions

The five functions that a query can apply to its groups. They are found by
name, whatever the case of its ASCII letters.
-/

namespace StreamQuery

inductive AggregateFunction where
  | avg | count | max | min | sum
  deriving DecidableEq, Repr

namespace AggregateFunction

def all : List AggregateFunction := [.avg, .count, .max, .min, .sum]

def name : AggregateFunction → String
  | .avg => "avg"
  | .count => "count"
  | .max => "max"
  | .min => "min"
  | .sum => "sum"

def description : AggregateFunction → String
  | .avg => "Arithmetic mean of the group's values. Durations average to a duration, " ++
      "everything else to a float."
  | .count => "Number of records in the group."
  | .max => "Greatest value in the group. For booleans, any true makes the result true."
  | .min => "Least value in the group. For booleans, any false makes the result false."
  | .sum => "Sum of the group's values."

/-- The kinds that the function takes; none are listed if it takes every kind. -/
def acceptedKinds : AggregateFunction → List ValueKind
  | .avg | .sum => [.int, .float, .duration]
  | .count => []
  | .max | .min => [.int, .float, .string, .bool, .duration, .time]

def documentation (f : AggregateFunction) : String :=
  let kinds :=
    if f.acceptedKinds.isEmpty then "any"
    else commaSeparated (f.acceptedKinds.map ValueKind.name)
  s!"{f.name}\n  {f.description}\n  accepts: {kinds}"

/-- The function of that name, whatever the case of its ASCII letters. -/
def ofName? (name : String) : Option AggregateFunction :=
  all.find? fun f => f.name.map Char.toLower == name.map Char.toLower

def ofName (name : String) : Except Error AggregateFunction :=
  match ofName? name with
  | some f => .ok f
  | none => .error (.argument s!"unknown aggregate '{name}'")

end AggregateFunction

end StreamQuery
