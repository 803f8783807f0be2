import StreamQuery.Value.Basic

/-!
# The order of values

Values of one kind are ordered: numbers by size, with the one NaN above all
floats, texts by their characters, which is the order of their bytes, `false`
before `true`, times as instants. Tuples and objects are ordered
lexicographically. Values of two kinds have no order, at any depth.
-/

namespace StreamQuery.Value

def mismatch (a b : Value) : Error := .typeMismatch a.kind.name b.kind.name

mutual

def compare : Value → Value → Except Error Ordering
  | .null, .null => .ok .eq
  | .int a, .int b => .ok (Ord.compare a.toInt b.toInt)
  | .float a, .float b => .ok (a.totalOrder b)
  | .string a, .string b => .ok (Ord.compare a b)
  | .bool a, .bool b => .ok (Ord.compare a b)
  | .time a, .time b => .ok (Ord.compare a.nanos b.nanos)
  | .duration a, .duration b => .ok (Ord.compare a.nanos b.nanos)
  | .tuple as, .tuple bs => compareItems as bs
  | .object as, .object bs => compareFields as bs
  | a, b => .error (mismatch a b)
termination_by structural v => v

def compareItems : List Value → List Value → Except Error Ordering
  | [], [] => .ok .eq
  | [], _ :: _ => .ok .lt
  | _ :: _, [] => .ok .gt
  | a :: as, b :: bs =>
    match compare a b with
    | .ok .eq => compareItems as bs
    | decided => decided
termination_by structural items => items

/-- Of two fields in one place the names decide before the values. -/
def compareFields : List (String × Value) → List (String × Value) → Except Error Ordering
  | [], [] => .ok .eq
  | [], _ :: _ => .ok .lt
  | _ :: _, [] => .ok .gt
  | (m, a) :: as, (n, b) :: bs =>
    match Ord.compare m n with
    | .eq =>
      match compare a b with
      | .ok .eq => compareFields as bs
      | decided => decided
    | decided => .ok decided
termination_by structural fields => fields

end

end StreamQuery.Value
