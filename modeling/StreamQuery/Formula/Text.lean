import StreamQuery.Formula.Basic
import StreamQuery.Value.Text

/-!
# The text of expressions and formulas

Every operand of a connective stands in parentheses.
-/

namespace StreamQuery

namespace Expression

mutual

def render : Expression → Rendering
  | .var name => some name.render
  | .const v => v.render
  | .tuple items => (renderItems items).map fun texts => "(" ++ commaSeparated texts ++ ")"
termination_by structural e => e

def renderItems : List Expression → Option (List String)
  | [] => some []
  | e :: rest => do return (← render e) :: (← renderItems rest)
termination_by structural items => items

end

end Expression

namespace Formula

def render : Formula → Rendering
  | .and left right => do return s!"({← left.render}) AND ({← right.render})"
  | .or left right => do return s!"({← left.render}) OR ({← right.render})"
  | .not inner => do return s!"NOT ({← inner.render})"
  | .const true => some "TRUE"
  | .const false => some "FALSE"
  | .predicate left relation right => do
    return s!"{← left.render} {relation.token} {← right.render}"

end Formula

end StreamQuery
