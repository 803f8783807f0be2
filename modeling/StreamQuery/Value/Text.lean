import StreamQuery.Numeric.Shortest
import StreamQuery.Value.Basic

/-!
# The text of values

Texts stand in double quotes and nothing in them is escaped. A value that
holds a time without a written form has no text itself.
-/

namespace StreamQuery

def commaSeparated (texts : List String) : String := ", ".intercalate texts

namespace Value

mutual

def render : Value → Rendering
  | .null => some "NULL"
  | .int n => some (toString n.toInt)
  | .float x => some x.render
  | .string s => some ("\"" ++ s ++ "\"")
  | .bool b => some (if b then "true" else "false")
  | .time t => t.render
  | .duration d => some d.render
  | .tuple items => (renderItems items).map fun texts => "(" ++ commaSeparated texts ++ ")"
  | .object fields =>
    (renderFields fields).map fun texts => "\x7b" ++ commaSeparated texts ++ "\x7d"
termination_by structural v => v

def renderItems : List Value → Option (List String)
  | [] => some []
  | v :: rest => do return (← render v) :: (← renderItems rest)
termination_by structural items => items

def renderFields : List (String × Value) → Option (List String)
  | [] => some []
  | (name, v) :: rest => do
    let text ← render v
    return (name ++ ": " ++ text) :: (← renderFields rest)
termination_by structural fields => fields

end

def refusedBy (v : Value) (context : String) : Error :=
  .invalidType context v.kind.name v.render

end Value

end StreamQuery
