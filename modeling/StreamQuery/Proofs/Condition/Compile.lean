import StreamQuery.Condition.Compile
import StreamQuery.Proofs.BottomUp
import StreamQuery.Proofs.Outcome

/-!
# Compiled forms

Compiling never fails. What it gives is the tree of the same shape
(`Expression.compiled`, `Formula.compiled`).
-/

namespace StreamQuery

namespace Expression

mutual

def compiled : Expression → Scalar
  | .var name => .var name
  | .const v => .const v
  | .tuple items => .tuple (compiledItems items)
termination_by structural e => e

def compiledItems : List Expression → List Scalar
  | [] => []
  | e :: rest => compiled e :: compiledItems rest
termination_by structural items => items

end

theorem compile_step (e : Expression) : e.compile = (do
    let items ← e.children.val.mapM compile
    e.assemble items) :=
  BottomUp.run_foldPure children assemble compile (fun _ => rfl) e

mutual

theorem compile_eq : (e : Expression) → e.compile = .ok e.compiled
  | .var _ | .const _ => by
    rw [compile_step]
    rfl
  | .tuple items => by
    rw [compile_step]
    simp only [children, mapM_compile items, ok_bind, assemble, compiled]
termination_by structural e => e

theorem mapM_compile : (items : List Expression) → items.mapM compile = .ok (compiledItems items)
  | [] => rfl
  | e :: rest => by
    rw [List.mapM_cons, compile_eq e, ok_bind, mapM_compile rest]
    rfl
termination_by structural items => items

end

end Expression

namespace Formula

def compiled : Formula → Condition
  | .and left right => .and left.compiled right.compiled
  | .or left right => .or left.compiled right.compiled
  | .not inner => .not inner.compiled
  | .const b => .const b
  | .predicate left relation right => .predicate left.compiled relation right.compiled

theorem compile_step (f : Formula) : f.compile = (do
    let parts ← f.children.val.mapM compile
    f.assemble parts) :=
  BottomUp.run_foldPure children assemble compile (fun _ => rfl) f

theorem compile_eq (f : Formula) : f.compile = .ok f.compiled := by
  induction f with
  | and left right ihl ihr | or left right ihl ihr =>
    rw [compile_step]
    simp only [children, List.mapM_cons, List.mapM_nil, ihl, ihr, ok_bind, pure_bind]
    rfl
  | not inner ih =>
    rw [compile_step]
    simp only [children, List.mapM_cons, List.mapM_nil, ih, ok_bind, pure_bind]
    rfl
  | const b =>
    rw [compile_step]
    rfl
  | predicate left relation right =>
    rw [compile_step]
    simp only [children, List.mapM_nil, pure_bind, assemble, assembleParts, Expression.compile_eq,
      ok_bind]
    rfl

end Formula

end StreamQuery
