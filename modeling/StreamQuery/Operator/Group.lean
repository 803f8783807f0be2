import StreamQuery.Aggregate.State
import StreamQuery.Operator.Basic

/-!
# Grouping

A grouping operator sorts the records of its source into groups by a key and
keeps one aggregate per further column. The rows of its output hold the values
of the key and then those of the aggregates. Rows are emitted either as updates
after every record, each retracting the row of the group before it, or once per
group at the end of the input, in the order in which the groups appeared. The
first failure ends the stream.
-/

namespace StreamQuery

inductive Emission where
  /-- After each record: the old row of its group is retracted and the new one
  emitted, unless they are the same. -/
  | updates
  | final
  deriving DecidableEq, Repr

structure Grouping where
  key : List Scalar
  inputs : List Scalar
  functions : List AggregateFunction
  output : List Name
  emission : Emission
  inputs_length : inputs.length = functions.length
  output_length : output.length = key.length + functions.length

structure Groups where
  aggregates : List Aggregate
  seen : GroupTable Unit

namespace Grouping

def make (key inputs : List Scalar) (functions : List AggregateFunction) (output : List Name)
    (emission : Emission) : Except Error Grouping :=
  let width := key.length + functions.length
  if hi : inputs.length = functions.length then
    if ho : output.length = width then .ok ⟨key, inputs, functions, output, emission, hi, ho⟩
    else .error (.argument s!"group by produces {width} columns but names {output.length}")
  else
    .error (.argument
      s!"group by has {functions.length} aggregates but {inputs.length} aggregate inputs")

def begin (g : Grouping) : Groups := ⟨g.functions.map Aggregate.start, .empty⟩

def row (g : Grouping) (groups : Groups) (key : GroupKey) : Except Error Record := do
  let aggregated ← groups.aggregates.mapM fun aggregate => aggregate.get key
  Record.ofLists g.output (key.values ++ aggregated)

def previousRow (g : Grouping) (groups : Groups) (key : GroupKey) :
    Except Error (Option Record) :=
  if groups.seen.contains key then some <$> g.row groups key else .ok none

def evaluate (g : Grouping) (scope : Scope) (record : Record) :
    Except Error (GroupKey × List Value) := do
  let inner := scope.withRecord record
  let key ← Scalar.evalItems inner g.key
  let inputs ← Scalar.evalItems inner g.inputs
  return (⟨key⟩, inputs)

def addAll (key : GroupKey) : List Aggregate → List Value → Except Error (List Aggregate)
  | aggregate :: aggregates, v :: inputs =>
    match aggregate.add key v with
    | (.error e, _) => .error e
    | (.ok (), added) => do return added :: (← addAll key aggregates inputs)
  | aggregates, _ => .ok aggregates

def absorb (groups : Groups) (key : GroupKey) (inputs : List Value) : Except Error Groups := do
  return ⟨← addAll key groups.aggregates inputs, groups.seen.upsert key () id⟩

def changes (previous : Option Record) (current : Record) : List Record :=
  match previous with
  | none => [current]
  | some previous => if previous == current then [] else [previous.retraction, current]

/-- Takes in a record while nothing stops the query: the rows to emit for it,
and the groups afterwards. Refusing a retraction that has no text panics. -/
def accept (g : Grouping) (scope : Scope) (groups : Groups) (record : Record) :
    Except Error (List Record × Groups) := do
  if record.isRetraction then
    .error (.invalidArgument do
      return s!"group by cannot consume retraction {← record.render}")
  let (key, inputs) ← g.evaluate scope record
  match g.emission with
  | .final => return ([], ← absorb groups key inputs)
  | .updates =>
    let previous ← g.previousRow groups key
    let after ← absorb groups key inputs
    return (changes previous (← g.row after key), after)

def consume (g : Grouping) (execution : Execution) (signals : Signals) (groups : Groups)
    (record : Record) : Except Error (List Record × Groups) := do
  execution.query.check signals
  g.accept execution.scope groups record

def finish (g : Grouping) (groups : Groups) : Except Error (List Record) :=
  match g.emission with
  | .final => groups.seen.keys.mapM (g.row groups)
  | .updates => .ok []

end Grouping

mutual

def RecordStream.group (g : Grouping) (execution : Execution) :
    RecordStream → Groups → RecordStream
  | .mk pull, groups => .mk fun signals => (pull signals).group g execution signals groups
termination_by structural stream => stream

def Pull.group (g : Grouping) (execution : Execution) (signals : Signals) :
    Pull → Groups → Pull
  | .done, groups =>
    match g.finish groups with
    | .ok rows => (RecordStream.ofRecords rows).next signals
    | .error e => .yield (.error e) .empty
  | .yield item rest, groups =>
    match item.bind (g.consume execution signals groups) with
    | .ok (rows, after) =>
      ((rest.group g execution after).prepend (rows.map .ok)).next signals
    | .error e => .yield (.error e) .empty
termination_by structural pull => pull

end

namespace Operator

variable {m : Type → Type} [Monad m]

/-- Groups the records of its source, beginning afresh at every start. -/
def group (g : Grouping) (source : Operator m) : Operator m where
  start execution signals := do
    let stream ← source.start execution signals
    return stream.group g execution g.begin

end Operator

end StreamQuery
