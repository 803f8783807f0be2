import StreamQuery.Error
import StreamQuery.Numeric.Double
import StreamQuery.Time.Timestamp

/-!
# Values

A value is one of nine kinds. Equality is structural: kinds never mix, floats
count by their normal form, so that both zeros and all NaNs are one value
each, and times count as instants, whatever offset shows them. The fields of an
object are kept in the order of their names.
-/

namespace StreamQuery

inductive ValueKind where
  | null | int | float | string | bool | time | duration | tuple | object
  deriving DecidableEq, Repr

namespace ValueKind

def all : List ValueKind := [.null, .int, .float, .string, .bool, .time, .duration, .tuple, .object]

def name : ValueKind → String
  | .null => "Null"
  | .int => "Int"
  | .float => "Float"
  | .string => "String"
  | .bool => "Bool"
  | .time => "Time"
  | .duration => "Duration"
  | .tuple => "Tuple"
  | .object => "Object"

def ofName? (name : String) : Option ValueKind := all.find? fun kind => kind.name == name

end ValueKind

inductive Value where
  | null
  | int (n : Int64)
  | float (x : Double)
  | string (s : String)
  | bool (b : Bool)
  | time (t : Timestamp)
  | duration (d : Duration)
  | tuple (items : List Value)
  /-- Named fields in ascending order of their names. -/
  | object (fields : List (String × Value))

namespace Value

instance : Inhabited Value := ⟨.null⟩

def kind : Value → ValueKind
  | .null => .null
  | .int _ => .int
  | .float _ => .float
  | .string _ => .string
  | .bool _ => .bool
  | .time _ => .time
  | .duration _ => .duration
  | .tuple _ => .tuple
  | .object _ => .object

def isNull : Value → Bool
  | .null => true
  | _ => false

def asInt? : Value → Option Int64
  | .int n => some n
  | _ => none

def asFloat? : Value → Option Double
  | .float x => some x
  | _ => none

def asString? : Value → Option String
  | .string s => some s
  | _ => none

def asBool? : Value → Option Bool
  | .bool b => some b
  | _ => none

def asTuple? : Value → Option (List Value)
  | .tuple items => some items
  | _ => none

def ofOption : Option Value → Value
  | some v => v
  | none => .null

def insertField (name : String) (v : Value) : List (String × Value) → List (String × Value)
  | [] => [(name, v)]
  | (other, w) :: rest =>
    match compare name other with
    | .lt => (name, v) :: (other, w) :: rest
    | .eq => (name, v) :: rest
    | .gt => (other, w) :: insertField name v rest

/-- The object with these fields. Of two with one name the later one counts. -/
def ofFields (fields : List (String × Value)) : Value :=
  .object (fields.foldl (fun sorted field => insertField field.1 field.2 sorted) [])

mutual

def beq : Value → Value → Bool
  | .null, .null => true
  | .int a, .int b => a == b
  | .float a, .float b => a.normalize == b.normalize
  | .string a, .string b => a == b
  | .bool a, .bool b => a == b
  | .time a, .time b => a.nanos == b.nanos
  | .duration a, .duration b => a.nanos == b.nanos
  | .tuple as, .tuple bs => beqItems as bs
  | .object as, .object bs => beqFields as bs
  | _, _ => false
termination_by structural v => v

def beqItems : List Value → List Value → Bool
  | [], [] => true
  | a :: as, b :: bs => beq a b && beqItems as bs
  | _, _ => false
termination_by structural items => items

def beqFields : List (String × Value) → List (String × Value) → Bool
  | [], [] => true
  | (m, a) :: as, (n, b) :: bs => m == n && (beq a b && beqFields as bs)
  | _, _ => false
termination_by structural fields => fields

end

instance : BEq Value := ⟨beq⟩

end Value

end StreamQuery
