import StreamQuery.Condition.Basic
import StreamQuery.Formula.Shape

/-!
# Compiling expressions and formulas

Each is folded into its compiled form. A failure while a formula is put
together names the kind of that formula.
-/

namespace StreamQuery

def Expression.assemble : Expression → List Scalar → Except Error Scalar
  | .var name, _ => .ok (.var name)
  | .const v, _ => .ok (.const v)
  | .tuple _, items => .ok (.tuple items)

def Expression.compile (e : Expression) : Except Error Scalar :=
  BottomUp.foldPure children (fun e items => liftOutcome (e.assemble items)) e |>.run |> Id.run

namespace Formula

def assembleParts : Formula → List Condition → Except Error Condition
  | .and _ _, children => do
    let (left, right) ← takeTwo children
    return .and left right
  | .or _ _, children => do
    let (left, right) ← takeTwo children
    return .or left right
  | .not _, children => do return .not (← takeOne children)
  | .const b, _ => .ok (.const b)
  | .predicate left relation right, _ => do
    return .predicate (← left.compile) relation (← right.compile)

def assemble (f : Formula) (children : List Condition) : Except Error Condition :=
  wrapFailure f.kind.name (f.assembleParts children)

def compile (f : Formula) : Except Error Condition :=
  BottomUp.foldPure children (fun f parts => liftOutcome (f.assemble parts)) f |>.run |> Id.run

end Formula

end StreamQuery
