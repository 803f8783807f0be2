import StreamQuery.Operator.Group
import StreamQuery.Plan.Memory
import StreamQuery.Proofs.Condition.Meaning
import StreamQuery.Proofs.Formula.Equality
import StreamQuery.Proofs.Stream

/-!
# Equivalent formulas

Two expressions, or two formulas, are equivalent if they have the same outcome
in every scope. Putting an equivalent one in place of a part keeps the whole
equivalent, whatever short cuts its evaluation takes. Operators cannot tell
equivalent formulas and expressions apart: a filter with another condition, or
a grouping with another key, is the very same operator (`Operator.filter_congr`,
`Grouping.Alike.operator`), and so is the scan of a table in memory
(`MemoryTable.compile_congr`).
-/

namespace StreamQuery

-- ---------------------------------------------------------------------------
-- Expressions and formulas
-- ---------------------------------------------------------------------------

namespace Expression

def Equivalent (e e' : Expression) : Prop := ∀ scope, e.evaluate scope = e'.evaluate scope

theorem Equivalent.value {e e' : Expression} (h : e.Equivalent e') (scope : Scope) :
    e.value scope = e'.value scope := by
  rw [← evaluate_eq, h scope, evaluate_eq]

theorem Equivalent.values {items items' : List Expression}
    (h : List.Forall₂ Equivalent items items') (scope : Scope) :
    valuesOfItems scope items = valuesOfItems scope items' := by
  induction h with
  | nil => rfl
  | cons hitem _ ih => rw [valuesOfItems, valuesOfItems, hitem.value, ih]

theorem Equivalent.tuple {items items' : List Expression}
    (h : List.Forall₂ Equivalent items items') : (tuple items).Equivalent (.tuple items') := by
  intro scope
  rw [evaluate_eq, Expression.value, Expression.value, values h]

theorem Equivalent.evalItems {items items' : List Expression}
    (h : List.Forall₂ Equivalent items items') (scope : Scope) :
    Scalar.evalItems scope (compiledItems items) =
      Scalar.evalItems scope (compiledItems items') := by
  rw [evalItems_compiled, evalItems_compiled, values h]

end Expression

namespace Formula

def Equivalent (f f' : Formula) : Prop := ∀ scope, f.evaluate scope = f'.evaluate scope

theorem Equivalent.outcome {f f' : Formula} (h : f.Equivalent f') (scope : Scope) :
    f.outcome scope = f'.outcome scope := by
  rw [← evaluate_eq, h scope, evaluate_eq]

theorem equivalent_iff {f f' : Formula} :
    f.Equivalent f' ↔ ∀ scope, f.outcome scope = f'.outcome scope :=
  forall_congr' fun scope => by rw [evaluate_eq]

section
variable {left left' right right' inner inner' : Formula}

theorem Equivalent.and (hl : left.Equivalent left') (hr : right.Equivalent right') :
    (left.and right).Equivalent (left'.and right') :=
  equivalent_iff.mpr fun scope => by
    rw [Formula.outcome, Formula.outcome, hl.outcome, hr.outcome]

theorem Equivalent.or (hl : left.Equivalent left') (hr : right.Equivalent right') :
    (left.or right).Equivalent (left'.or right') :=
  equivalent_iff.mpr fun scope => by
    rw [Formula.outcome, Formula.outcome, hl.outcome, hr.outcome]

theorem Equivalent.not (h : inner.Equivalent inner') : inner.not.Equivalent inner'.not :=
  equivalent_iff.mpr fun scope => by rw [Formula.outcome, Formula.outcome, h.outcome]

theorem equivalent_predicate {left left' right right' : Expression} (relation : Relation)
    (hl : left.Equivalent left') (hr : right.Equivalent right') :
    (predicate left relation right).Equivalent (.predicate left' relation right') :=
  equivalent_iff.mpr fun scope => by
    rw [Formula.outcome, Formula.outcome, hl.value, hr.value]

end

end Formula

-- ---------------------------------------------------------------------------
-- Operators
-- ---------------------------------------------------------------------------

variable {m : Type → Type} [Monad m]

namespace Operator

theorem filter_congr {f f' : Formula} (h : f.Equivalent f') (source : Operator m) :
    filter f.compiled source = filter f'.compiled source := by
  have hkeep : keepIf f.compiled = keepIf f'.compiled := by
    funext scope item
    cases item with
    | error e => rfl
    | ok record => rw [keepIf, keepIf, Formula.eval_compiled, Formula.eval_compiled, h.outcome]
  rw [filter, filter, hkeep]

theorem keepIf_const_true (scope : Scope) : keepIf (.const true) scope = some := by
  funext item
  cases item with
  | error e => rfl
  | ok record => rw [keepIf, Condition.eval_eq_outcome, Condition.outcome]

theorem filter_const_true [LawfulMonad m] (source : Operator m) :
    filter (.const true) source = source := by
  have hstart : ∀ execution signals,
      (filter (.const true) source).start execution signals = source.start execution signals := by
    intro execution signals
    rw [filter]
    simp only [keepIf_const_true, RecordStream.filterMap_some, bind_pure]
  exact congrArg mk (funext fun execution => funext (hstart execution))

end Operator

namespace MemoryTable

variable [LawfulMonad m]

theorem compile_eq (memory : MemoryTable) (f : Formula) (qualifier : String) :
    memory.compile (m := m) f qualifier = (do
      let names : List Name := memory.columns.map fun column => ⟨some qualifier, column⟩
      let rows ← Operator.ofRows names memory.rows
      return .filter f.compiled rows) := by
  rw [compile]
  refine congrArg (_ >>= ·) (funext fun rows => ?_)
  split
  · -- The short cut leaves the filter out.
    rename_i htrue
    rw [Formula.beq_const.mp htrue, Formula.compiled, Operator.filter_const_true]
  · rw [Formula.compile_eq]
    rfl

theorem compile_congr (memory : MemoryTable) {f f' : Formula} (h : f.Equivalent f')
    (qualifier : String) :
    memory.compile (m := m) f qualifier = memory.compile f' qualifier := by
  rw [compile_eq, compile_eq]
  refine congrArg (_ >>= ·) (funext fun rows => ?_)
  rw [Operator.filter_congr h]

end MemoryTable

-- ---------------------------------------------------------------------------
-- Groupings
-- ---------------------------------------------------------------------------

namespace Grouping

structure Alike (g g' : Grouping) : Prop where
  key : ∀ scope, Scalar.evalItems scope g.key = Scalar.evalItems scope g'.key
  inputs : ∀ scope, Scalar.evalItems scope g.inputs = Scalar.evalItems scope g'.inputs
  functions : g.functions = g'.functions
  output : g.output = g'.output
  emission : g.emission = g'.emission

namespace Alike

variable {g g' : Grouping}

theorem row (h : g.Alike g') : g.row = g'.row := by
  funext groups key
  rw [Grouping.row, Grouping.row, h.output]

theorem finish (h : g.Alike g') : g.finish = g'.finish := by
  funext groups
  rw [Grouping.finish, Grouping.finish, h.row, h.emission]

theorem consume (h : g.Alike g') : g.consume = g'.consume := by
  have hevaluate : g.evaluate = g'.evaluate := by
    funext scope record
    simp only [Grouping.evaluate, h.key, h.inputs]
  have hprevious : g.previousRow = g'.previousRow := by
    funext groups key
    rw [previousRow, previousRow, h.row]
  funext execution signals groups record
  rw [Grouping.consume, Grouping.consume, accept, accept, hevaluate, hprevious, h.row, h.emission]

mutual

theorem group_stream (h : g.Alike g') (execution : Execution) : (stream : RecordStream) →
    (groups : Groups) → stream.group g execution groups = stream.group g' execution groups
  | .mk pull, groups =>
    congrArg RecordStream.mk
      (funext fun signals => group_pull h execution signals (pull signals) groups)
termination_by structural stream => stream

theorem group_pull (h : g.Alike g') (execution : Execution) (signals : Signals) : (pull : Pull) →
    (groups : Groups) →
      pull.group g execution signals groups = pull.group g' execution signals groups
  | .done, groups => by rw [Pull.group, Pull.group, h.finish]
  | .yield item rest, groups => by
    rw [Pull.group, Pull.group, h.consume]
    split
    · rw [group_stream h execution rest]
    · rfl
termination_by structural pull => pull

end

theorem operator (h : g.Alike g') (source : Operator m) :
    Operator.group g source = Operator.group g' source := by
  have hbegin : g.begin = g'.begin := by rw [begin, begin, h.functions]
  rw [Operator.group, Operator.group]
  simp only [h.group_stream, hbegin]

end Alike

end Grouping

end StreamQuery
