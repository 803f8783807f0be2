import StreamQuery.Proofs.Operator.Equivalence
import StreamQuery.Proofs.Plan.Faults

/-!
# Where a filter stands

Two filters in a row are one filter with the conjunction of their conditions
(`Operator.filter_filter`): the second condition is looked at only for the items
that the first one lets through, and this is what a conjunction does. A table in
memory filters its own rows like any filter behind it, so it is all the same
whether a plan leaves a condition to the table, states it in a step of its own, or
divides it between the two (`filter_placement`).
-/

namespace StreamQuery

variable {m : Type → Type} [Monad m]

-- ---------------------------------------------------------------------------
-- Operators
-- ---------------------------------------------------------------------------

namespace Operator

theorem keepIf_bind (f g : Condition) (scope : Scope) (item : Item) :
    (keepIf f scope item).bind (keepIf g scope) = keepIf (.and f g) scope item := by
  cases item with
  | error e => rfl
  | ok record =>
    simp only [keepIf, Condition.eval_eq_outcome, Condition.outcome]
    cases hf : f.outcome (scope.withRecord record) with
    | error e => rfl
    | ok b =>
      cases b with
      | false => rfl
      | true => simp [keepIf, Condition.eval_eq_outcome, bothHold]

theorem filter_filter [LawfulMonad m] (f g : Condition) (source : Operator m) :
    filter g (filter f source) = filter (.and f g) source := by
  have hstart : ∀ execution signals, (filter g (filter f source)).start execution signals =
      (filter (.and f g) source).start execution signals := by
    intro execution signals
    simp only [filter, bind_assoc, pure_bind, RecordStream.filterMap_filterMap, keepIf_bind]
  exact congrArg mk (funext fun execution => funext (hstart execution))

end Operator

-- ---------------------------------------------------------------------------
-- Tables in memory
-- ---------------------------------------------------------------------------

namespace MemoryTable

def records (memory : MemoryTable) (qualifier : String) : List Record :=
  memory.rows.map fun row => ⟨(memory.columns.map fun column => ⟨some qualifier, column⟩).zip row, false⟩

theorem ofRows_eq (memory : MemoryTable) (qualifier : String) :
    Operator.ofRows (m := m) (memory.columns.map fun column => ⟨some qualifier, column⟩)
      memory.rows = .ok (.values (memory.records qualifier)) := by
  refine bind_ok.mpr ⟨_, mapM_ok.mpr ?_, rfl⟩
  rw [records, List.forall₂_map_right_iff, List.forall₂_same]
  intro row hrow
  rw [Record.ofLists, if_pos]
  simp [memory.rows_length row hrow]

theorem compile_eq_filter [LawfulMonad m] (memory : MemoryTable) (f : Formula) (qualifier : String) :
    memory.compile (m := m) f qualifier =
      .ok (.filter f.compiled (.values (memory.records qualifier))) := by
  rw [compile_eq]
  simp only [ofRows_eq, ok_bind]
  rfl

end MemoryTable

-- ---------------------------------------------------------------------------
-- Plans
-- ---------------------------------------------------------------------------

namespace Plan

variable [LawfulMonad m] {β : Type} {tables : β → Table m} {plan : Plan β}
  {built operator : Operator m}

/-- The plan compiles to this operator without fail, unless the query is stopped, which
is then the failure of the step at the root. -/
structure CompilesTo (tables : β → Table m) (plan : Plan β) (operator : Operator m) : Prop where
  running : ∀ query signals, query.check signals = .ok () →
    (plan.compile tables query signals).run = pure (.ok operator)
  stopped : ∀ query signals e, query.check signals = .error e →
    (plan.compile tables query signals).run = pure (.error (.compile plan.kind.name e))

theorem compilesTo_of_settle (htable : ∀ query, (plan.compileTable tables query).run = pure (.ok built))
    (hsettle : plan.settle (.ok built) = .ok operator) : plan.CompilesTo tables operator where
  running query signals hcheck := by
    rw [run_compile hcheck, htable, map_pure, hsettle]
  stopped _ _ _ hcheck := run_compile_of_stopped hcheck

end Plan

theorem MemoryTable.run_compile [LawfulMonad m] (memory : MemoryTable) (query : Query) (f : Formula)
    (qualifier : String) : (memory.toTable.compile (m := m) query f qualifier).run =
      pure (.ok (.filter f.compiled (.values (memory.records qualifier)))) := by
  simp only [toTable, compile_eq_filter]
  rfl

/-- Two filters in a row, over any source, are the filter with the conjunction: the
same operator, so that in every execution the same items come in the same order, the
failures among them.

A plan that filters a table in memory by two formulas is the same operator
whether the table is left the first one, or both, or nothing to do: it filters the
rows of the table by the conjunction. None of these plans fails to compile unless the
query is stopped.

Premise: the table that the plan refers to is one in memory. -/
theorem filter_placement [LawfulMonad m] :
    (∀ (f g : Condition) (source : Operator m),
      Operator.filter g (.filter f source) = .filter (.and f g) source) ∧
    ∀ (β : Type) (tables : β → Table m) (table : β) (memory : MemoryTable),
      tables table = memory.toTable → ∀ (qualifier : String) (f g : Formula),
      let operator : Operator m := .filter (f.and g).compiled (.values (memory.records qualifier))
      (Plan.filter g (.scan table qualifier f)).CompilesTo tables operator ∧
      (Plan.scan table qualifier (.and f g)).CompilesTo tables operator ∧
      (Plan.filter g (.filter f (.scan table qualifier (.const true)))).CompilesTo tables operator := by
  refine ⟨Operator.filter_filter, ?_⟩
  intro β tables table memory h qualifier f g
  have hscan : ∀ f query, ((tables table).compile query f qualifier).run =
      pure (.ok (.filter f.compiled (.values (memory.records qualifier)))) := by
    intro f query
    rw [h]
    exact memory.run_compile query f qualifier
  have hnothing := hscan (.const true)
  rw [Formula.compiled, Operator.filter_const_true] at hnothing
  have hfused : Operator.filter g.compiled (.filter f.compiled (.values (memory.records qualifier))) =
      (.filter (f.and g).compiled (.values (memory.records qualifier)) : Operator m) :=
    Operator.filter_filter _ _ _
  refine ⟨?_, Plan.compilesTo_of_settle (hscan _) rfl, ?_⟩
  · rw [← hfused]
    exact Plan.compilesTo_of_settle (hscan f) rfl
  · rw [← hfused]
    exact Plan.compilesTo_of_settle hnothing rfl

def readings : MemoryTable :=
  ⟨"readings", ["n"], [[.int 1], [.int 5], [.string "x"], [.int 9]], by decide⟩

def aboveTwo : Formula := .predicate (.var ⟨none, "n"⟩) .moreThan (.const (.int 2))

def belowSeven : Formula := .predicate (.var ⟨none, "n"⟩) .lessThan (.const (.int 7))

/-- The one row in between is left, and the failure of the row that is no number. -/
theorem filter_placement_of_readings :
    ∃ operator : Operator Id,
      (Plan.filter belowSeven (.scan () "t" aboveTwo)).compile (fun _ => readings.toTable)
        (.unlabelled 0) .quiet = pure operator ∧
      (Plan.scan () "t" (.and aboveTwo belowSeven)).compile (fun _ => readings.toTable)
        (.unlabelled 0) .quiet = pure operator ∧
      (Plan.filter belowSeven (.filter aboveTwo (.scan () "t" (.const true)))).compile
        (fun _ => readings.toTable) (.unlabelled 0) .quiet = pure operator ∧
      (RecordStream.toList .quiet <$> operator.start ⟨.unlabelled 0, .empty⟩ .quiet).run =
        .ok [.ok ⟨[(⟨some "t", "n"⟩, .int 5)], false⟩, .error (.typeMismatch "String" "Int")] := by
  obtain ⟨-, hplans⟩ := filter_placement (m := Id)
  obtain ⟨hdivided, hboth, hneither⟩ :=
    hplans Unit (fun _ => readings.toTable) () readings rfl "t" aboveTwo belowSeven
  refine ⟨_, hdivided.running _ _ rfl, hboth.running _ _ rfl, hneither.running _ _ rfl, ?_⟩
  -- The stack that conditions are evaluated on does not reduce. Their outcome does.
  simp only [Operator.filter]
  delta Operator.keepIf
  simp only [Condition.eval_eq_outcome]
  rfl

end StreamQuery
