import StreamQuery.Aggregate.Function
import StreamQuery.Value.Order

/-!
# What an aggregate keeps of a group

Every function keeps one cell per group: a mean, a number of records, or a
value. `step` puts a value into a cell, or into the place of a missing one, and
`report` reads the result off. A step that fails leaves the cell as it was.

Means are floats and reported as such, but for durations, which count in
nanoseconds and are cut toward zero. Totals of integers and durations are exact
or refused. Extremes follow the order of their kind, the earliest of equals
staying; floats go by numeric order, in which a NaN neither displaces a number
nor is displaced, and for truth values one of the two dominates.
-/

namespace StreamQuery

structure Mean where
  count : Nat
  value : Double

namespace Mean

def zero : Mean := ⟨0, .zero⟩

instance : Inhabited Mean := ⟨zero⟩

def add (mean : Mean) (x : Double) : Mean :=
  let count := mean.count + 1
  let n := Double.ofNat count
  ⟨count, (mean.value * (n - Double.ofNat 1) + x) / n⟩

def number? : Value → Option Double
  | .int n => some (Double.ofInt n.toInt)
  | .float x => some x
  | .duration d => some (Double.ofInt d.nanos)
  | _ => none

def report (mean : Mean) : Option ValueKind → Value
  | some .duration => .duration (.ofInt64 mean.value.toInt64)
  | _ => .float mean.value

end Mean

def addInt64? (a b : Int64) : Option Int64 :=
  let total := a.toInt + b.toInt
  if Int64.minValue.toInt ≤ total ∧ total ≤ Int64.maxValue.toInt then some (Int64.ofInt total)
  else none

namespace Total

def overflow (total v : Value) : Error :=
  .invalidArgument do return s!"sum overflow adding {← v.render} to {← total.render}"

def first (v : Value) : Except Error Value :=
  match v with
  | .int _ | .float _ | .duration _ => .ok v
  | _ => .error (v.refusedBy AggregateFunction.sum.name)

def add (total v : Value) : Except Error Value :=
  match total, v with
  | .int a, .int b => ((addInt64? a b).map .int).elim (.error (overflow total v)) .ok
  | .float x, .float y => .ok (.float (x + y))
  | .duration a, .duration b => ((a.add? b).map .duration).elim (.error (overflow total v)) .ok
  | _, _ => .error (v.refusedBy AggregateFunction.sum.name)

end Total

inductive Direction where
  | greatest | least
  deriving DecidableEq, Repr

namespace Direction

/-- The truth value that decides a group. -/
def dominant : Direction → Bool
  | .greatest => true
  | .least => false

/-- How a candidate has to compare with the current extreme to displace it. -/
def winning : Direction → Ordering
  | .greatest => .gt
  | .least => .lt

def displaces (direction : Direction) (candidate current : Value) : Except Error Bool :=
  match current, candidate with
  | _, .bool b => .ok (b == direction.dominant)
  | .float x, .float y => .ok (y.numericOrder x == some direction.winning)
  | _, _ => do return (← candidate.compare current) == direction.winning

def extreme (direction : Direction) (current v : Value) : Except Error Value := do
  return if ← direction.displaces v current then v else current

end Direction

namespace AggregateFunction

abbrev Cell : AggregateFunction → Type
  | .avg => Mean
  | .count => Nat
  | .max | .min | .sum => Value

def step : (f : AggregateFunction) → Option f.Cell → Value → Except Error f.Cell
  | .avg, cell, v =>
    match Mean.number? v with
    | some x => .ok ((cell.getD .zero).add x)
    | none => .error (v.refusedBy AggregateFunction.avg.name)
  | .count, cell, _ => .ok (cell.getD 0 + 1)
  | .max, cell, v => cell.elim (.ok v) fun current => Direction.greatest.extreme current v
  | .min, cell, v => cell.elim (.ok v) fun current => Direction.least.extreme current v
  | .sum, cell, v => cell.elim (Total.first v) fun total => Total.add total v

def report : (f : AggregateFunction) → f.Cell → Option ValueKind → Value
  | .avg, mean, kind => Mean.report mean kind
  | .count, n, _ => .int (Int64.ofNat n)
  | .max, v, _ | .min, v, _ | .sum, v, _ => v

/-- What the function is called where a group without records is asked for. -/
def title : AggregateFunction → String
  | .avg => "average"
  | f => f.name

end AggregateFunction

end StreamQuery
