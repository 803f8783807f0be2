import StreamQuery.Condition.Eval
import StreamQuery.Proofs.Condition.Compile

/-!
# Values of expressions

Items are evaluated one by one (`evalItems_ok`). Evaluating an expression reads
its variables and nothing else (`eval_congr`).
-/

namespace StreamQuery

namespace Scalar

variable {scope : Scope} {items : List Scalar} {values : List Value}

theorem evalItems_eq_mapM : evalItems scope items = items.mapM (eval scope) := by
  induction items with
  | nil => rfl
  | cons s rest ih =>
    rw [evalItems, List.mapM_cons, ih]

theorem evalItems_ok : evalItems scope items = .ok values ↔
    List.Forall₂ (fun s v => eval scope s = .ok v) items values := by
  rw [evalItems_eq_mapM, mapM_ok]

theorem evalItems_length (h : evalItems scope items = .ok values) :
    values.length = items.length :=
  (List.Forall₂.length_eq (evalItems_ok.mp h)).symm

end Scalar

namespace Expression

variable {scope other : Scope}

mutual

theorem eval_congr : (e : Expression) → (∀ name ∈ e.vars, scope.get name = other.get name) →
    e.compiled.eval scope = e.compiled.eval other
  | .var name, h => h name List.mem_cons_self
  | .const _, _ => rfl
  | .tuple items, h => by
    rw [compiled, Scalar.eval, Scalar.eval, evalItems_congr items h]
termination_by structural e => e

theorem evalItems_congr : (items : List Expression) →
    (∀ name ∈ varsOfItems items, scope.get name = other.get name) →
    Scalar.evalItems scope (compiledItems items) = Scalar.evalItems other (compiledItems items)
  | [], _ => rfl
  | e :: rest, h => by
    rw [compiledItems, Scalar.evalItems, Scalar.evalItems,
      eval_congr e fun name hn => h name (List.mem_append_left _ hn),
      evalItems_congr rest fun name hn => h name (List.mem_append_right _ hn)]
termination_by structural items => items

end

end Expression

end StreamQuery
